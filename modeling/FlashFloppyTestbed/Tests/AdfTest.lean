/-
  Tests/AdfTest.lean --- `adf_test` of `src/main.c`, on a drive that answers.

  The test prints the name of an image of 880 or 1760 kilobytes, asks for that image,
  writes a track of random data to it and reads it back.  It is silent on any drive that
  answers and keeps what is written (`adfTest_spec`): the revolution is taken to be the
  bitcells of the write, no more and no fewer, so that nothing depends on what the image
  holds.
-/
import FlashFloppyTestbed.Disk.AmigaRoundTrip
import FlashFloppyTestbed.Led.Display
import FlashFloppyTestbed.Tests.DskTest

set_option autoImplicit false

namespace FlashFloppyTestbed

open FlashFloppyTestbed.Foundation FlashFloppyTestbed.Floppy

/-! ## The code -/

/-- What a run of `adf_test` meets: the memory and `name`, the memory and buffer of the write, and
the read, on whatever track, with the buffer that it fills. -/
structure AdfEnv where
  da : DaEnv
  mem : Mem
  name : Buffer 16
  bc : Mem × Nat
  read : Disk → IbmCall
  q : Mem

/-- `adf_test(nsec)`; a `BUG_ON` ends it, and a failed `ASSERT` is `none`. -/
def adfTest (e : AdfEnv) (nsec : Nat) (v : Drive) (seed : BitVec 32) : Option TestRun := do
  let track := 5
  let v := { v with head := v.head.floppySelect ⟨0, Nat.zero_lt_two⟩ }
  let name ← vsnprintf e.mem e.name.val 16 amigaName [.word (BitVec.ofNat 32 (nsec * 80))]
  let a ← daSelectImage e.da v name.mem e.name.val
  if a.bug then some ⟨a.drive, seed, a.warned, true⟩
  else
    let head ← a.drive.head.floppySeek e.da.fuel (track / 2) (track &&& 1)
    let v := { a.drive with head }
    let p := randBytes (nsec * 512) seed
    let w ← amigaTrackWrite e.bc.1 e.bc.2 (Mem.stBytes (fun _ => 0) 0 p.1) track nsec
    let v := v.record (Disk.ofBits (w.2.bits w.1))
    let c := e.read v.current
    let r ← amigaTrackRead v.current c.resume c.fuel c.mem c.buffers.1 e.q track nsec c.start
    some ⟨v, p.2, a.warned || r.warned || decide (p.1 ≠ r.buf.bytes 0 (nsec * 512)), false⟩

/-! ## The name -/

/-- The name of the image. -/
def adfName (nsec : Nat) : List Byte :=
  (if nsec = 11 then ['a', 'm', 'i', 'g', 'a', '_', '8', '8', '0']
    else ['a', 'm', 'i', 'g', 'a', '_', '1', '7', '6', '0']).map ch

/-- A character that begins no directive is printed. -/
theorem prints_char {c : Byte} (hc : c ≠ ch '%') {format : List Byte} {ap : List Arg}
    {l : List Byte} (h : Prints (fun last o => vsnprintfLoop last format ap o) l) :
    Prints (fun last o => vsnprintfLoop last (c :: format) ap o) (c :: l) := by
  intro last o
  dsimp only
  rw [vsnprintfLoop, if_neg hc]
  exact h last (doPutch last o c)

theorem noWidth_lt : 0 < 2 ^ 31 := by decide

/-- `"%u"`. -/
def unsignedDirective : Directive := ⟨false, false, 0, .word, .u, noWidth_lt⟩

theorem prints_amigaName (x : BitVec 32) :
    Prints (fun last o => vsnprintfLoop last amigaName.val [.word x] o)
      (['a', 'm', 'i', 'g', 'a', '_'].map ch ++ unsignedDirective.field x) := by
  have hfield : Prints (fun last o => vsnprintfLoop last unsignedDirective.text [.word x] o)
      (unsignedDirective.field x) := by
    intro last o
    have hemit := unsignedDirective.emits_field x last [] [] o
    rwa [List.append_nil, List.append_nil] at hemit
  exact prints_char (by decide) (prints_char (by decide) (prints_char (by decide)
    (prints_char (by decide) (prints_char (by decide) (prints_char (by decide) hfield)))))

theorem adfName_eq {nsec : Nat} (hnsec : nsec = 11 ∨ nsec = 22) :
    ['a', 'm', 'i', 'g', 'a', '_'].map ch ++
      unsignedDirective.field (BitVec.ofNat 32 (nsec * 80)) = adfName nsec := by
  rcases hnsec with rfl | rfl <;> decide

theorem length_adfName (nsec : Nat) : (adfName nsec).length ≤ 10 := by
  unfold adfName
  split <;> decide

theorem zero_notMem_adfName (nsec : Nat) : 0 ∉ adfName nsec := by
  unfold adfName
  split <;> decide

/-- The name is printed whole, and nothing but its buffer is written. -/
theorem vsnprintf_adfName (m : Mem) (str : Buffer 16) {nsec : Nat} (hnsec : nsec = 11 ∨ nsec = 22) :
    ∃ r, vsnprintf m str.val 16 amigaName [.word (BitVec.ofNat 32 (nsec * 80))] = some r ∧
      r.mem.Holds str.val (adfName nsec) ∧
      ∀ a, a < str.val ∨ str.val + 16 ≤ a → r.mem a = m a := by
  have hlen := length_adfName nsec
  have hprints := prints_amigaName (BitVec.ofNat 32 (nsec * 80))
  rw [adfName_eq hnsec] at hprints
  exact Led.vsnprintf_holds hprints m str (by omega) (by decide)

/-! ## The test -/

/-- What the test relies on: that `da_select_image` can be called, with `name` apart from what it
uses, and time enough to read the track. -/
structure AdfEnv.Good (e : AdfEnv) : Prop where
  da : e.da.Good e.mem
  apart : e.da.sig + daSig.length < e.name.val ∨ e.name.val + 16 ≤ e.da.sig
  beside : Beside e.name.val 15 e.da.p
  fuel : ∀ d, d.size ≤ (e.read d).fuel
  timely : ∀ d : Disk, d.Timely 6 (e.read d).resume

/-- With the name printed, `da_select_image` can be called. -/
theorem AdfEnv.Good.named {e : AdfEnv} (h : e.Good) {nsec : Nat} {m : Mem}
    (hholds : m.Holds e.name.val (adfName nsec))
    (hframe : ∀ a, a < e.name.val ∨ e.name.val + 16 ≤ a → m a = e.mem a) :
    e.da.Good m ∧ e.da.Named m e.name.val (adfName nsec) := by
  have hlen := length_adfName nsec
  have hfuel := h.da.fuel
  refine ⟨{ h.da with sig := h.da.sig.congr fun i hlo hhi => hframe i ?_ },
    hholds, zero_notMem_adfName nsec, ?_, by omega, by omega⟩
  · have hapart := h.apart
    omega
  · have hbeside := h.beside
    unfold Beside at hbeside ⊢
    omega

/-- **`adf_test`** on a drive that answers: silent, unless the disk is not changed in time. -/
theorem adfTest_spec {e : AdfEnv} (hgood : e.Good) {nsec : Nat} (hnsec : nsec = 11 ∨ nsec = 22)
    {v : Drive} (hsync : v.head.Synced) (hanswers : Answers v.tracks) (seed : BitVec 32) :
    ∃ r, adfTest e nsec v seed = some r ∧ r.warned = false ∧
      (r.bug = false ↔ e.da.change.InTime) ∧ r.drive.head.Synced ∧ Answers r.drive.tracks := by
  have hfuel : 255 < e.da.fuel := Nat.lt_of_le_of_lt (Nat.le_max_left _ _) hgood.da.fuel
  have hselected : (v.head.floppySelect ⟨0, Nat.zero_lt_two⟩).Synced :=
    ⟨⟨rfl, hsync.step⟩, rfl, hsync.count⟩
  -- the image
  obtain ⟨name, hname, hholds, hframe⟩ := vsnprintf_adfName e.mem e.name hnsec
  obtain ⟨hda, hnamed⟩ := hgood.named hholds hframe
  obtain ⟨a, ha, hwarned, hbug, hsync₀, -, -, -, hanswers₀⟩ :=
    daSelectImage_spec hda hnamed
      (v := ⟨v.head.floppySelect ⟨0, Nat.zero_lt_two⟩, v.tracks⟩) hselected hanswers
  by_cases hreturn : a.bug = true
  · refine ⟨⟨a.drive, seed, a.warned, true⟩, ?_, hwarned, hreturn ▸ hbug, hsync₀, hanswers₀⟩
    rw [adfTest, hname]
    simp only [Option.bind_eq_bind, Option.bind_some, ha, hreturn, if_true]
  rw [Bool.not_eq_true] at hreturn
  -- the track
  obtain ⟨s, hsync₁, hhead, -, hseek⟩ :=
    Drive.seek_settles hsync₀ (show 5 / 2 ≤ 255 by decide) (5 &&& 1)
  obtain ⟨p, hp⟩ : ∃ p, p = randBytes (nsec * 512) seed := ⟨_, rfl⟩
  have hlen : p.1.length = nsec * 512 := by rw [hp, length_randBytes]
  obtain ⟨w, n, hwrite, hn, hbits⟩ :=
    amigaTrackWrite_spec e.bc.1 e.bc.2 (Mem.stBytes (fun _ => 0) 0 p.1) 5 hnsec
  obtain ⟨d, hd⟩ : ∃ d, d = amigaDisk (Mem.stBytes (fun _ => 0) 0 p.1) 5 nsec n := ⟨_, rfl⟩
  have hdisk : Disk.ofBits (w.2.bits w.1) = d := by
    rw [hbits, hd]
    rfl
  obtain ⟨c, hc⟩ : ∃ c, c = e.read d := ⟨_, rfl⟩
  have htimely : d.Timely 6 c.resume := hc ▸ hgood.timely d
  have hsize : d.size ≤ c.fuel := hc ▸ hgood.fuel d
  rw [hd] at htimely hsize
  obtain ⟨r, hr, hwarned', -, hbuf⟩ := amigaTrackRead_spec hn (by decide) (by omega) (by omega)
    htimely hsize c.mem c.buffers.1 e.q c.start
  rw [← hd] at hr
  have hsame : r.buf.bytes 0 (nsec * 512) = p.1 := by
    have hwritten := Mem.bytes_stBytes (fun _ => 0) 0 p.1
    rw [hlen, Nat.mul_comm] at hwritten
    rw [Nat.mul_comm, hbuf, hwritten]
  obtain ⟨v₁, hv₁⟩ : ∃ v₁ : Drive, v₁ = (⟨s, a.drive.tracks⟩ : Drive).record d := ⟨_, rfl⟩
  refine ⟨⟨v₁, p.2, false, false⟩, ?_, rfl, hreturn ▸ hbug, ?_, ?_⟩
  · rw [adfTest, hname]
    simp only [Option.bind_eq_bind, Option.bind_some, ha, hreturn, Bool.false_eq_true, if_false,
      hseek e.da.fuel hfuel, ← hp, hwrite, hdisk, Drive.record_current, ← hc, hr, hwarned,
      hwarned', hsame, ne_eq, not_true_eq_false, decide_false, Bool.or_false, hv₁]
  · rw [hv₁]
    exact hsync₁
  · rw [hv₁]
    refine Answers.record (v := ⟨s, a.drive.tracks⟩) hanswers₀ d ?_
    rw [hhead]
    decide

end FlashFloppyTestbed
