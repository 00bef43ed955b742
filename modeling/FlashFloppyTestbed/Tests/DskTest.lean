/-
  Tests/DskTest.lean --- `dsk_test` of `src/main.c`, on a drive that answers.

  The test asks for the image `tst_dsk`, which `scripts/mk_edsk.py` has made, runs the
  read/write test on two of its tracks, formats one of them with a single header, and
  reads what the format has left.  On a drive that mounts what it is told to mount it is
  silent (`dskTest_spec`): the headers that the test expects are the ones that the script
  put into the image (`edskTrack_four`, `edskTrack_zero`).

  The tracks of the mounted image are laid out as `ibm_mfm_write_track` lays them out, and
  the drive keeps what is written as it was written.  A format makes a new revolution:
  behind what it writes there is filler, and the sectors that were there are gone.
-/
import FlashFloppyTestbed.Edsk
import FlashFloppyTestbed.Tests.DirectAccess

set_option autoImplicit false

namespace FlashFloppyTestbed

open FlashFloppyTestbed.Foundation FlashFloppyTestbed.Floppy FlashFloppyTestbed.Edsk

/-! ## The code -/

/-- What a call of `ibm_mfm_write_track` meets: its memory and buffer, and the filler of the
revolution behind the write. -/
structure FormatEnv where
  mem : Mem
  p : Nat
  fs : List Byte
  n : Nat

/-- `ibm_mfm_write_track(&idam, 1, 84)`: the revolution, whose old contents behind the write
are forgotten, and whether `mfm_check` has warned. -/
def FormatEnv.format (f : FormatEnv) (idam : Idam) : Disk × Bool :=
  (formattedDisk f.mem f.p [idam] 84 f.fs f.n,
    decide ((ibmMfmWriteTrack f.mem f.p [idam] 84).reported ≠ []))

/-- What a test leaves: the drive, the seed of `rand`, whether a `WARN_ON` has fired, and whether
a `BUG_ON` has. -/
structure TestRun where
  drive : Drive
  seed : BitVec 32
  warned : Bool
  bug : Bool

/-- What a run of `dsk_test` meets, on whatever tracks. -/
structure DskEnv where
  da : DaEnv
  mem : Mem
  name : Nat
  rw₁ : Disk → RwEnv
  rw₂ : Disk → RwEnv
  rw₃ : Disk → RwEnv
  format₁ : FormatEnv
  read : Disk → IbmCall
  format₂ : FormatEnv

/-- `dsk_test`; a `BUG_ON` ends it. -/
def dskTest (e : DskEnv) (v : Drive) (seed : BitVec 32) : Option TestRun := do
  let v := { v with head := v.head.floppySelect ⟨0, Nat.zero_lt_two⟩ }
  let a ← daSelectImage e.da v e.mem e.name
  if a.bug then some ⟨a.drive, seed, a.warned, true⟩
  else
    let head ← a.drive.head.floppySeek e.da.fuel 2 0
    let v := { a.drive with head }
    let t₁ ← mfmRwSector (e.rw₁ v.current) v.current seed ⟨2, 0, 3, 6⟩ 3 1
    let v := v.record t₁.disk
    let head ← v.head.floppySeek e.da.fuel 0 0
    let v := { v with head }
    let t₂ ← mfmRwSector (e.rw₂ v.current) v.current t₁.seed ⟨0, 0, 18, 2⟩ 3 16
    let v := v.record t₂.disk
    let t₃ ← mfmRwSector (e.rw₃ v.current) v.current t₂.seed ⟨0, 0, 3, 2⟩ 3 16
    let v := v.record t₃.disk
    -- with a good IDAM.R
    let f₁ := e.format₁.format ⟨0, 0, 3, 2⟩
    let v := v.record f₁.1
    let c := e.read v.current
    let q ← ibmMfmReadSector v.current c.resume c.fuel c.mem c.buffers.1 c.buffers.2 ⟨0, 0, 3, 2⟩
      c.start
    -- with a bad IDAM.R
    let f₂ := e.format₂.format ⟨0, 0, 22, 2⟩
    let v := v.record f₂.1
    some
      { drive := v
        seed := t₃.seed
        warned := a.warned || t₁.warned || t₂.warned || t₃.warned || f₁.2 || q.warned ||
          q.data.any (fun x => x ≠ 0xe2) || f₂.2
        bug := false }

/-! ## The image -/

/-- `"tst_dsk"`. -/
def dskName : List Byte := ['t', 's', 't', '_', 'd', 's', 'k'].map ch

/-- A drive that has been told to select an image. -/
def Told (tracks : Nat → Bool → Disk) (name : List Byte) : Prop :=
  ∃ command, (tracks 255 false).MfmHolds daIdam command ∧ Selects name command

/-- A drive in which a DSK image is mounted. -/
def Mounted (tracks : Nat → Bool → Disk) (file : List Byte) : Prop :=
  ∀ cyl < nrCyls, ∀ side, ∃ fs,
    (tracks cyl side).Formatted 84 (edskSectors file (nrHeads * cyl + side.toNat)) fs

theorem edskTrack_eq (k : Nat) : edskTrack k = storedSectors ((edskTrack k).map Sector.idam)
    fun _ => List.replicate (128 <<< (k % 5 + 2)) 0 := by
  rw [storedSectors, edskTrack, List.map_map, List.map_map]
  rfl

/-- Cylinder 2 has the one header that the test expects there. -/
theorem edskTrack_four : (edskTrack 4).map Sector.idam = expectedIdams ⟨2, 0, 3, 6⟩ 3 1 := by
  decide

/-- And cylinder 0 the 16. -/
theorem edskTrack_zero : (edskTrack 0).map Sector.idam = expectedIdams ⟨0, 0, 18, 2⟩ 3 16 := by
  decide

/-- What the script puts on the tracks of the test. -/
theorem Mounted.formatted {tracks : Nat → Bool → Disk} {file : List Byte}
    (h : Mounted tracks file) (hfile : mkEdsk = .ok file) :
    (∃ c fs, (tracks 2 false).Formatted 84 (storedSectors (expectedIdams ⟨2, 0, 3, 6⟩ 3 1) c) fs) ∧
    ∃ c fs, (tracks 0 false).Formatted 84
      (storedSectors (expectedIdams ⟨0, 0, 18, 2⟩ 3 16) c) fs := by
  obtain ⟨file', hfile', htracks⟩ := edskSectors_mkEdsk
  obtain rfl : file = file' := Except.ok.inj (hfile.symm.trans hfile')
  obtain ⟨fs₂, h₂⟩ := h 2 (by decide) false
  obtain ⟨fs₀, h₀⟩ := h 0 (by decide) false
  have htwo : edskSectors file (nrHeads * 2 + false.toNat) = edskTrack 4 := htracks 4 (by decide)
  have hzero : edskSectors file (nrHeads * 0 + false.toNat) = edskTrack 0 := htracks 0 (by decide)
  rw [htwo, edskTrack_eq, edskTrack_four] at h₂
  rw [hzero, edskTrack_eq, edskTrack_zero] at h₀
  exact ⟨⟨_, _, h₂⟩, _, _, h₀⟩

/-! ## The calls -/

/-- A write below the cylinders of the status keeps it. -/
theorem Answers.record {v : Drive} (h : Answers v.tracks) (d : Disk) (hcyl : v.head.head < 254) :
    Answers (v.record d).tracks := by
  have h₁ : (v.record d).tracks 255 false = v.tracks 255 false := v.record_tracks d (by omega)
  have h₂ : (v.record d).tracks 254 false = v.tracks 254 false := v.record_tracks d (by omega)
  exact ⟨h₁.symm ▸ h.status, h₂.symm ▸ h.fmStatus⟩

/-- `mfm_check` has nothing to report of a track, which begins with gap bytes. -/
theorem ibmMfmWriteTrack_reported (m : Mem) (p : Nat) (idams : List Idam) (gap3 : Nat) :
    (ibmMfmWriteTrack m p idams gap3).reported = [] := by
  have hgap := (Out.Holds.nil m p).memset 0x4e 64
  obtain ⟨o, hfold, hholds⟩ := foldl_trackSector gap3 idams _ _ [] hgap
  have hall := (hholds.memset 0x4e 64).bytes_eq
  have hfirst : (o.memset 0x4e 64).mem p = 0x4e := by
    rw [List.nil_append, List.append_assoc, show List.replicate 64 (0x4e : Byte) =
      0x4e :: List.replicate 63 0x4e from rfl, List.cons_append, List.length_cons,
      Mem.bytes_succ] at hall
    exact (List.cons.inj hall).1
  obtain ⟨n, hn⟩ : ∃ n, trackBytes idams gap3 = n + 1 := by
    refine Nat.exists_eq_succ_of_ne_zero ?_
    rw [trackBytes]
    split <;> omega
  rw [ibmMfmWriteTrack, hfold, hn]
  exact finishMfm_reported 1 (Mem.bytes_succ _ p n) (by rw [hfirst]; rfl)

/-- The read/write test on a track, by what its sectors hold. -/
theorem mfmRwSector_stored {e : RwEnv} {d : Disk} {gap3 : Nat} {i : Idam} {base nr : Byte}
    {c : Idam → List Byte} {fs : List Byte}
    (h : d.Formatted gap3 (storedSectors (expectedIdams i base nr) c) fs)
    (hi : i ∈ expectedIdams i base nr) (hr : base.toNat + nr.toNat ≤ 255) (hnr : nr.toNat ≤ 64)
    (hgood : e.Good d gap3 (expectedIdams i base nr)) (seed : BitVec 32) :
    ∃ r, mfmRwSector e d seed i base nr = some r ∧ r.warned = false ∧
      ∃ c', r.disk.Formatted gap3 (storedSectors (expectedIdams i base nr) c') fs := by
  obtain ⟨pre, post, hsecs, hother, hnew⟩ := storedSectors_split c (expectedIdams_nodup hr) hi
  have hidams : (pre ++ ⟨i, c i⟩ :: post).map Sector.idam = expectedIdams i base nr := by
    rw [← hsecs, storedSectors, List.map_map]
    exact List.map_id _
  rw [hsecs] at h
  obtain ⟨r, hrun, hwarned, -, -, hafter⟩ :=
    mfmRwSector_spec h hother hidams hr hnr (by rw [hidams]; exact hgood) seed
  exact ⟨r, hrun, hwarned, _, by rw [hnew]; exact hafter⟩

/-- What the test relies on: that `da_select_image` can be called, that the drive mounts the image
when it is told to, and time enough on the tracks that it then sees. -/
structure DskEnv.Good (e : DskEnv) : Prop where
  da : e.da.Good e.mem
  named : e.da.Named e.mem e.name dskName
  mounts : ∀ tracks file, Answers tracks → Told tracks dskName → mkEdsk = .ok file →
    Mounted (e.da.mount (e.da.answer tracks)) file
  rw₁ : ∀ d c fs, d.Formatted 84 (storedSectors (expectedIdams ⟨2, 0, 3, 6⟩ 3 1) c) fs →
    (e.rw₁ d).Good d 84 (expectedIdams ⟨2, 0, 3, 6⟩ 3 1)
  rw₂ : ∀ d c fs, d.Formatted 84 (storedSectors (expectedIdams ⟨0, 0, 18, 2⟩ 3 16) c) fs →
    (e.rw₂ d).Good d 84 (expectedIdams ⟨0, 0, 18, 2⟩ 3 16)
  rw₃ : ∀ d c fs, d.Formatted 84 (storedSectors (expectedIdams ⟨0, 0, 3, 2⟩ 3 16) c) fs →
    (e.rw₃ d).Good d 84 (expectedIdams ⟨0, 0, 3, 2⟩ 3 16)
  read : ∀ d, (e.read d).Good d

/-- A format, and what is read behind it. -/
theorem FormatEnv.format_spec (f : FormatEnv) (i : Idam) {c : IbmCall}
    (hgood : c.Good (f.format i).1) :
    (f.format i).2 = false ∧ ibmMfmReadSector (f.format i).1 c.resume c.fuel c.mem c.buffers.1
      c.buffers.2 i c.start = some ⟨List.replicate i.size 0xe2, false⟩ := by
  have hformatted : (f.format i).1.Formatted 84 ([] ++ ⟨i, List.replicate i.size 0xe2⟩ :: [])
      f.fs := formattedDisk_formatted f.mem f.p [i] (by decide) f.fs f.n
  refine ⟨?_, hformatted.ibmMfmReadSector_spec (by simp) hgood.timely hgood.fuel c.mem c.buffers.1
    c.buffers.2 c.start⟩
  rw [FormatEnv.format, ibmMfmWriteTrack_reported]
  rfl

/-- **`dsk_test`** on a drive that answers, and mounts the image of `scripts/mk_edsk.py`: silent,
unless the disk is not changed in time. -/
theorem dskTest_spec {e : DskEnv} (hgood : e.Good) {v : Drive} (hsync : v.head.Synced)
    (hanswers : Answers v.tracks) (seed : BitVec 32) :
    ∃ r, dskTest e v seed = some r ∧ r.warned = false ∧ (r.bug = false ↔ e.da.change.InTime) ∧
      r.drive.head.Synced ∧ Answers r.drive.tracks := by
  have hfuel : 255 < e.da.fuel := Nat.lt_of_le_of_lt (Nat.le_max_left _ _) hgood.da.fuel
  have hselected : (v.head.floppySelect ⟨0, Nat.zero_lt_two⟩).Synced :=
    ⟨⟨rfl, hsync.step⟩, rfl, hsync.count⟩
  -- the image
  obtain ⟨a, ha, hwarned, hbug, hsync₀, -, ⟨command, hcommand, hselects⟩, htracks, hanswers₀⟩ :=
    daSelectImage_spec hgood.da hgood.named
      (v := ⟨v.head.floppySelect ⟨0, Nat.zero_lt_two⟩, v.tracks⟩) hselected hanswers
  by_cases hreturn : a.bug = true
  · refine ⟨⟨a.drive, seed, a.warned, true⟩, ?_, hwarned, hreturn ▸ hbug, hsync₀, hanswers₀⟩
    rw [dskTest, ha]
    simp only [Option.bind_eq_bind, Option.bind_some, hreturn, if_true]
  rw [Bool.not_eq_true] at hreturn
  have hmounted := hgood.mounts _ _ (hanswers.command hcommand hselects)
    ⟨command, hcommand, hselects⟩ mkEdsk_eq
  rw [← htracks] at hmounted
  obtain ⟨⟨c₁, fs₁, htwo⟩, c₂, fs₂, hzero⟩ := hmounted.formatted mkEdsk_eq
  -- cylinder 2
  obtain ⟨s₁, hsync₁, hhead₁, hside₁, hseek₁⟩ :=
    Drive.seek_settles hsync₀ (show 2 ≤ 255 by decide) 0
  obtain ⟨v₁, hv₁⟩ : ∃ v₁ : Drive, v₁ = ⟨s₁, a.drive.tracks⟩ := ⟨_, rfl⟩
  have hcurrent₁ : v₁.current = a.drive.tracks 2 false := by
    rw [hv₁, Drive.current, hhead₁, hside₁]
    rfl
  rw [← hcurrent₁] at htwo
  obtain ⟨t₁, ht₁, hwarned₁, -⟩ := mfmRwSector_stored htwo (by decide) (by decide) (by decide)
    (hgood.rw₁ _ _ _ htwo) seed
  have hanswers₁ : Answers (v₁.record t₁.disk).tracks := by
    refine Answers.record ?_ t₁.disk ?_
    · rw [hv₁]
      exact hanswers₀
    · rw [hv₁, hhead₁]
      decide
  -- cylinder 0
  obtain ⟨s₂, hsync₂, hhead₂, hside₂, hseek₂⟩ :=
    Drive.seek_settles (v := v₁.record t₁.disk) (by rw [hv₁]; exact hsync₁) (Nat.zero_le 255) 0
  obtain ⟨v₂, hv₂⟩ : ∃ v₂ : Drive, v₂ = ⟨s₂, (v₁.record t₁.disk).tracks⟩ := ⟨_, rfl⟩
  have hcurrent₂ : v₂.current = a.drive.tracks 0 false := by
    have hother : ¬ (0 = v₁.head.head ∧ false = v₁.head.side) := by
      rw [hv₁, hhead₁]
      exact fun h => absurd h.1 (by decide)
    have hkept := v₁.record_tracks t₁.disk hother
    rw [hv₂, Drive.current, hhead₂, hside₂, show decide (0 ≠ 0) = false from rfl, hkept, hv₁]
  rw [← hcurrent₂] at hzero
  obtain ⟨t₂, ht₂, hwarned₂, c₃, hafter⟩ := mfmRwSector_stored hzero (by decide) (by decide)
    (by decide) (hgood.rw₂ _ _ _ hzero) t₁.seed
  obtain ⟨t₃, ht₃, hwarned₃, -⟩ := mfmRwSector_stored (i := ⟨0, 0, 3, 2⟩) hafter (by decide)
    (by decide) (by decide) (hgood.rw₃ _ _ _ hafter) t₂.seed
  -- the formats
  obtain ⟨f₁, hf₁⟩ : ∃ f₁, f₁ = e.format₁.format ⟨0, 0, 3, 2⟩ := ⟨_, rfl⟩
  obtain ⟨f₂, hf₂⟩ : ∃ f₂, f₂ = e.format₂.format ⟨0, 0, 22, 2⟩ := ⟨_, rfl⟩
  have hgoodRead := hgood.read f₁.1
  rw [hf₁] at hgoodRead
  obtain ⟨hquiet₁, hread⟩ := e.format₁.format_spec _ hgoodRead
  have hquiet₂ := (e.format₂.format_spec ⟨0, 0, 22, 2⟩ (hgood.read _)).1
  rw [← hf₁] at hquiet₁ hread
  rw [← hf₂] at hquiet₂
  have hfill : (List.replicate (Idam.size ⟨0, 0, 3, 2⟩) (0xe2 : Byte)).any (fun x => x ≠ 0xe2) =
      false := by
    rw [List.any_eq_false]
    intro x hx
    simp [List.eq_of_mem_replicate hx]
  obtain ⟨v₃, hv₃⟩ : ∃ v₃, v₃ = (((v₂.record t₂.disk).record t₃.disk).record f₁.1).record f₂.1 :=
    ⟨_, rfl⟩
  refine ⟨⟨v₃, t₃.seed, false, false⟩, ?_, rfl, hreturn ▸ hbug, ?_, ?_⟩
  · have hstart₁ : (⟨s₁, a.drive.tracks⟩ : Drive) = v₁ := hv₁.symm
    have hstart₂ : (⟨s₂, (v₁.record t₁.disk).tracks⟩ : Drive) = v₂ := hv₂.symm
    rw [dskTest, ha]
    simp only [Option.bind_eq_bind, Option.bind_some, hreturn, Bool.false_eq_true, if_false,
      hseek₁ e.da.fuel hfuel, hstart₁, ht₁, hseek₂ e.da.fuel hfuel, hstart₂, ht₂,
      Drive.record_current, ht₃, ← hf₁, ← hf₂, hread, hwarned, hwarned₁, hwarned₂, hwarned₃,
      hquiet₁, hquiet₂, hfill, Bool.or_false, ← hv₃]
  · rw [hv₃, hv₂]
    exact hsync₂
  · have hhead : v₂.head.head < 254 := by
      rw [hv₂, hhead₂]
      decide
    have hanswers₂ : Answers v₂.tracks := by
      rw [hv₂]
      exact hanswers₁
    rw [hv₃]
    exact (((hanswers₂.record _ hhead).record _ hhead).record _ hhead).record _ hhead

end FlashFloppyTestbed
