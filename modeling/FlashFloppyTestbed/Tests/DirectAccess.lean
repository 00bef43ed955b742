/-
  Tests/DirectAccess.lean --- `src/da.c`: the Direct Access protocol, on a drive that
  answers it.

  The drive shows its status in a sector of cylinder 255, which begins with a
  signature, and takes commands that are written there.  `da_select_image` reads the
  status, puts a command together in the same buffer, writes it, and reads the status
  again; then the drive changes the disk.

  A drive that answers has the signature in its status sectors (`Answers`).  On any
  such drive the calls are silent, whatever the drive puts behind the signature,
  whatever it makes of a command and whatever disk it changes to
  (`daSelectImage_spec`, `daTest_spec`); and what it gets to see is the command that
  was meant (`DaStep.keeps`).  A string on the stack lies where the buffer is not.
-/
import FlashFloppyTestbed.Disk.FmStore
import FlashFloppyTestbed.Floppy.Drive
import FlashFloppyTestbed.Strings
import FlashFloppyTestbed.Tests.RwSector

set_option autoImplicit false

namespace FlashFloppyTestbed

open FlashFloppyTestbed.Foundation FlashFloppyTestbed.Floppy

/-! ## The code -/

/-- `sig`. -/
def daSig : List Byte := ['H', 'x', 'C', 'F', 'E', 'D', 'A'].map ch

/-- `idam`. -/
def daIdam : Idam := ⟨255, 0, 0, 2⟩

/-- `fm_idam`. -/
def daFmIdam : Idam := ⟨254, 0, 0, 2⟩

/-- `CMD_SELECT_NAME`. -/
def cmdSelectName : Byte := 10

/-- What a call of `src/ibm.c` meets: its memory and buffers, when it begins, and how it reads
on. -/
structure IbmCall where
  mem : Mem
  buffers : Nat × Nat
  fuel : Nat
  start : Nat
  resume : Nat → Nat

/-- What a call of `src/da.c` meets: `fuel` for its loops, the addresses of its buffer and of
`sig`, the calls it makes, on whatever track, and what the drive does: what it makes of a
command, and what it mounts when the disk is changed. -/
structure DaEnv where
  fuel : Nat
  p : Nat
  sig : Nat
  fm : Disk → IbmCall
  first : Disk → IbmCall
  write : Disk → IbmCall
  answer : (Nat → Bool → Disk) → Nat → Bool → Disk
  second : Disk → IbmCall
  change : ChangeEnv
  mount : (Nat → Bool → Disk) → Nat → Bool → Disk

/-- `da_check_status(p)`: the memory, and whether a `WARN_ON` has fired. -/
def daCheckStatus (c : IbmCall) (d : Disk) (m : Mem) (p sig : Nat) : Option (Mem × Bool) :=
  (ibmMfmReadSector d c.resume c.fuel c.mem c.buffers.1 c.buffers.2 daIdam c.start).map fun r =>
    let m := m.stBytes p r.data
    (m, r.warned || decide (strcmp m p sig ≠ 0))

/-- What a call leaves: the drive, the revolution it wrote, whether a `WARN_ON` has fired, and
whether a `BUG_ON` has. -/
structure DaResult where
  drive : Drive
  command : Disk
  warned : Bool
  bug : Bool

/-- `da_select_image(name)`. -/
def daSelectImage (e : DaEnv) (v : Drive) (m : Mem) (name : Nat) : Option DaResult := do
  let head ← v.head.floppySeek e.fuel 255 0
  let v := { v with head }
  let status ← daCheckStatus (e.first v.current) v.current m e.p e.sig
  let m ← strcpy e.fuel status.1 e.p e.sig
  let m := m.st8 (e.p + 8) cmdSelectName
  let m ← strcpy e.fuel m (e.p + 9) name
  let c := e.write v.current
  let w ← ibmMfmWriteSector v.current c.resume c.fuel c.mem c.buffers.1 c.buffers.2
    (m.bytes e.p 512) daIdam 4 c.start
  let v := { v with tracks := e.answer (v.record w.disk).tracks }
  let status' ← daCheckStatus (e.second v.current) v.current m e.p e.sig
  let c ← v.head.floppyDiskChange e.fuel e.change
  some ⟨⟨c.head, e.mount v.tracks⟩, w.disk, status.2 || w.warned || status'.2, c.bug⟩

/-- `da_test()`: the drive, and whether a `WARN_ON` has fired. -/
def daTest (e : DaEnv) (v : Drive) (m : Mem) : Option (Drive × Bool) := do
  let head ← (v.head.floppySelect ⟨0, Nat.zero_lt_two⟩).floppySeek e.fuel 254 0
  let v := { v with head }
  let c := e.fm v.current
  let r ← ibmFmReadSector v.current c.resume c.fuel c.mem c.buffers.1 c.buffers.2 daFmIdam c.start
  let m := m.stBytes e.p r.data
  let warned := r.warned || decide (strcmp m e.p e.sig ≠ 0)
  let head ← v.head.floppySeek e.fuel 255 0
  let v := { v with head }
  -- what `da_check_status` does stands here once more
  let status ← daCheckStatus (e.first v.current) v.current m e.p e.sig
  some (v, warned || status.2)

/-! ## Buffers -/

/-- A string in front of a buffer of 512 bytes, or behind it. -/
def Beside (a len p : Nat) : Prop := a + len < p ∨ p + 512 ≤ a

theorem Mem.Holds.beside {m : Mem} {a p : Nat} {l data : List Byte} (h : m.Holds a l)
    (hbeside : Beside a l.length p) (hdata : data.length ≤ 512) : (m.stBytes p data).Holds a l := by
  refine h.congr fun i hlo hhi => ?_
  rcases hbeside with hlt | hge
  · exact m.stBytes_of_lt data (by omega)
  · exact m.stBytes_of_le data (by omega)

/-- Bytes stored over the front of others. -/
theorem Mem.stBytes_over (m : Mem) (p : Nat) {front data : List Byte}
    (hle : front.length ≤ data.length) :
    (m.stBytes p data).stBytes p front = m.stBytes p (front ++ data.drop front.length) := by
  funext i
  have hlen : (front ++ data.drop front.length).length = data.length := by
    rw [List.length_append, List.length_drop]
    omega
  rw [Mem.stBytes, Mem.stBytes, Mem.stBytes, hlen]
  by_cases hfront : p ≤ i ∧ i < p + front.length
  · rw [if_pos hfront, if_pos (by omega), List.getD_append _ _ _ _ (by omega)]
  · rw [if_neg hfront]
    by_cases hin : p ≤ i ∧ i < p + data.length
    · rw [if_pos hin, if_pos hin, List.getD_append_right _ _ _ _ (by omega),
        List.getD_eq_getElem?_getD, List.getD_eq_getElem?_getD, List.getElem?_drop]
      congr 2
      omega
    · rw [if_neg hin, if_neg hin]

/-! ## Sectors that begin with the signature -/

/-- A sector that begins with the signature. -/
def Signed (data : List Byte) : Prop := data.take 8 = daSig ++ [0]

theorem Signed.holds {data : List Byte} (h : Signed data) (m : Mem) (p : Nat) :
    (m.stBytes p data).Holds p daSig := by
  have hlen := congrArg List.length h
  have hsig : (daSig ++ [0]).length = 8 := rfl
  rw [List.length_take, hsig] at hlen
  have hsub := Mem.bytes_sub (m.stBytes p data) p data.length 0 8 (by omega)
  rw [Mem.bytes_stBytes] at hsub
  exact hsub.trans h

/-- A sector as a command to select an image. -/
def Selects (name data : List Byte) : Prop :=
  data.take (10 + name.length) = daSig ++ [0, cmdSelectName] ++ name ++ [0]

theorem Selects.signed {name data : List Byte} (h : Selects name data) : Signed data := by
  have htake := congrArg (List.take 8) h
  rw [List.take_take, Nat.min_eq_left (by omega), List.append_assoc, List.append_assoc] at htake
  exact htake

/-- The sector `i` of an MFM track holds `data`, and there is no other one like it.  Its gap has
room for the four bytes that a command writes there. -/
def Disk.MfmHolds (d : Disk) (i : Idam) (data : List Byte) : Prop :=
  ∃ gap3 pre post fs, d.Formatted gap3 (pre ++ ⟨i, data⟩ :: post) fs ∧
    (∀ s ∈ pre ++ post, s.idam ≠ i) ∧ 4 ≤ gap3

/-- The same of an FM track. -/
def Disk.FmHolds (d : Disk) (i : Idam) (data : List Byte) : Prop :=
  ∃ lead gap3 pre post, d.FmFormatted lead gap3 (pre ++ ⟨i, data⟩ :: post) ∧
    ∀ s ∈ pre ++ post, s.idam ≠ i

/-- A drive that answers: its status sectors begin with the signature. -/
structure Answers (tracks : Nat → Bool → Disk) : Prop where
  status : ∃ data, (tracks 255 false).MfmHolds daIdam data ∧ Signed data
  fmStatus : ∃ data, (tracks 254 false).FmHolds daFmIdam data ∧ Signed data

/-! ## The calls -/

/-- Enough for a call on an MFM track. -/
structure IbmCall.Good (c : IbmCall) (d : Disk) : Prop where
  fuel : d.size ≤ c.fuel
  timely : d.Timely 10 c.resume

/-- Enough for a call on an FM track. -/
structure IbmCall.FmGood (c : IbmCall) (d : Disk) : Prop where
  fuel : d.size ≤ c.fuel
  timely : d.FmTimely 8 c.resume

/-- What the calls rely on: time enough, `sig` in memory that is not the buffer, and a drive
that keeps its status sectors. -/
structure DaEnv.Good (e : DaEnv) (m : Mem) : Prop where
  fuel : max 255 e.change.pulses < e.fuel
  sig : m.Holds e.sig daSig
  beside : Beside e.sig daSig.length e.p
  fm : ∀ d, (e.fm d).FmGood d
  first : ∀ d, (e.first d).Good d
  write : ∀ d, (e.write d).Good d
  second : ∀ d, (e.second d).Good d
  answer : ∀ tracks, Answers tracks → Answers (e.answer tracks)
  mount : ∀ tracks, Answers tracks → Answers (e.mount tracks)

/-- `name` is at `a`, not in the buffer, and short enough for it. -/
structure DaEnv.Named (e : DaEnv) (m : Mem) (a : Nat) (name : List Byte) : Prop where
  holds : m.Holds a name
  text : 0 ∉ name
  beside : Beside a name.length e.p
  fits : name.length + 10 ≤ 512
  fuel : name.length < e.fuel

theorem strcmp_sig {m : Mem} {p sig : Nat} (hp : m.Holds p daSig) (hsig : m.Holds sig daSig) :
    strcmp m p sig = 0 :=
  (strcmp_eq_zero_iff (by decide) hsig (by decide)).mpr hp

theorem Disk.MfmHolds.length_eq {d : Disk} {i : Idam} {data : List Byte} (h : d.MfmHolds i data) :
    data.length = i.size := by
  obtain ⟨gap3, pre, post, fs, hformatted, -, -⟩ := h
  exact hformatted.data ⟨i, data⟩ (by simp)

theorem Disk.FmHolds.length_eq {d : Disk} {i : Idam} {data : List Byte} (h : d.FmHolds i data) :
    data.length = i.size := by
  obtain ⟨lead, gap3, pre, post, hformatted, -⟩ := h
  exact hformatted.data ⟨i, data⟩ (by simp)

/-- **The status** of a drive that answers is accepted. -/
theorem daCheckStatus_spec {c : IbmCall} {d : Disk} {data : List Byte} (hd : d.MfmHolds daIdam data)
    (hsigned : Signed data) (hgood : c.Good d) {m : Mem} {p sig : Nat} (hsig : m.Holds sig daSig)
    (hbeside : Beside sig daSig.length p) :
    daCheckStatus c d m p sig = some (m.stBytes p data, false) := by
  have hlen := hd.length_eq
  obtain ⟨gap3, pre, post, fs, hformatted, hother, -⟩ := hd
  have hread := hformatted.ibmMfmReadSector_spec (s := ⟨daIdam, data⟩) hother hgood.timely
    hgood.fuel c.mem c.buffers.1 c.buffers.2 c.start
  have hkept : (m.stBytes p data).Holds sig daSig := hsig.beside hbeside hlen.le
  have hsame := strcmp_sig (hsigned.holds m p) hkept
  rw [daCheckStatus, hread]
  simp only [Option.map_some, hsame, ne_eq, not_true_eq_false, decide_false, Bool.or_false]

/-- The command that is put together in the buffer, over the status. -/
theorem daCommand_spec {e : DaEnv} {m : Mem} (hgood : e.Good m) {a : Nat} {name : List Byte}
    (hname : e.Named m a name) {data : List Byte} (hdata : data.length = 512) :
    ∃ m₁ m₂ command, strcpy e.fuel (m.stBytes e.p data) e.p e.sig = some m₁ ∧
      strcpy e.fuel (m₁.st8 (e.p + 8) cmdSelectName) (e.p + 9) a = some m₂ ∧
      m₂ = m.stBytes e.p command ∧ command.length = 512 ∧ Selects name command := by
  obtain ⟨front, hfront⟩ : ∃ front, front = daSig ++ [0, cmdSelectName] := ⟨_, rfl⟩
  have hlen : front.length = 9 := by rw [hfront]; rfl
  have hfuel := hgood.fuel
  -- the signature
  have hsig : (m.stBytes e.p data).Holds e.sig daSig :=
    hgood.sig.beside hgood.beside hdata.le
  have hsigapart : e.p ≤ e.sig ∨ e.sig + daSig.length < e.p := by
    rcases hgood.beside with hlt | hge
    · exact .inr hlt
    · exact .inl (by omega)
  have hsiglen : daSig.length < e.fuel := Nat.lt_of_lt_of_le (by decide : daSig.length < 255)
    (by omega)
  have hfirst := strcpy_spec (by decide) hsig hsigapart hsiglen
  have hst8 : ((m.stBytes e.p data).stBytes e.p (daSig ++ [0])).st8 (e.p + 8) cmdSelectName =
      (m.stBytes e.p data).stBytes e.p front := by
    rw [Mem.st8_eq_stBytes, hfront]
    exact Mem.stBytes_stBytes _ e.p (daSig ++ [0]) [cmdSelectName]
  -- the name
  have hholds : ((m.stBytes e.p data).stBytes e.p front).Holds a name :=
    (hname.holds.beside hname.beside hdata.le).beside hname.beside (by omega)
  have hfits := hname.fits
  have hnameapart : e.p + 9 ≤ a ∨ a + name.length < e.p + 9 := by
    rcases hname.beside with hlt | hge
    · exact .inr (by omega)
    · exact .inl (by omega)
  have hsecond := strcpy_spec hname.text hholds hnameapart hname.fuel
  have hwhole : ((m.stBytes e.p data).stBytes e.p front).stBytes (e.p + 9) (name ++ [0]) =
      m.stBytes e.p (front ++ (name ++ [0]) ++
        data.drop (front ++ (name ++ [0])).length) := by
    have hbehind := Mem.stBytes_stBytes (m.stBytes e.p data) e.p front (name ++ [0])
    rw [hlen] at hbehind
    rw [hbehind, Mem.stBytes_over m e.p (by simp; omega)]
  rw [hwhole, ← hst8] at hsecond
  refine ⟨_, _, front ++ (name ++ [0]) ++ data.drop (front ++ (name ++ [0])).length, hfirst,
    hsecond, rfl, ?_, ?_⟩
  · simp
    omega
  · have hcount : (front ++ (name ++ [0])).length = 10 + name.length := by
      simp
      omega
    rw [Selects, List.take_left' hcount, hfront]
    simp only [List.append_assoc]

/-- A command that is written leaves a sector with the command. -/
theorem Disk.MfmHolds.write {d : Disk} {data : List Byte} (h : d.MfmHolds daIdam data) {c : IbmCall}
    (hgood : c.Good d) {command : List Byte} (hlen : command.length = 512) :
    ∃ w, ibmMfmWriteSector d c.resume c.fuel c.mem c.buffers.1 c.buffers.2 command daIdam 4
        c.start = some w ∧ w.warned = false ∧ w.disk.MfmHolds daIdam command := by
  obtain ⟨gap3, pre, post, fs, hformatted, hother, hgap⟩ := h
  obtain ⟨w, hw, hwarned, hafter⟩ := hformatted.ibmMfmWriteSector_spec (s := ⟨daIdam, data⟩) hother
    hgood.timely hgood.fuel c.mem c.buffers.1 c.buffers.2
    (show command.length = daIdam.size from hlen) (g := 4) hgap c.start
  exact ⟨w, hw, hwarned, gap3, pre, post, fs, hafter, hother, hgap⟩

/-- A command begins with the signature, too. -/
theorem Answers.command {tracks : Nat → Bool → Disk} (h : Answers tracks) {d : Disk}
    {name command : List Byte} (hd : d.MfmHolds daIdam command) (hselects : Selects name command) :
    Answers fun cyl side => if cyl = 255 ∧ side = false then d else tracks cyl side :=
  ⟨⟨command, hd, hselects.signed⟩, h.fmStatus⟩

/-- The status of a drive is of the size of the buffer. -/
theorem Disk.MfmHolds.length_status {d : Disk} {data : List Byte} (h : d.MfmHolds daIdam data) :
    data.length = 512 := h.length_eq

/-- **`da_test`** finds the signature on both cylinders of a drive that answers, and leaves the
head over the second one. -/
theorem daTest_spec {e : DaEnv} {m : Mem} (hgood : e.Good m) {v : Drive} (hsync : v.head.Synced)
    (hanswers : Answers v.tracks) :
    ∃ t : Head, t.Synced ∧ t.head = 255 ∧ daTest e v m = some (⟨t, v.tracks⟩, false) := by
  obtain ⟨⟨data, hholds, hsigned⟩, ⟨fmData, hfmHolds, hfmSigned⟩⟩ := hanswers
  have hfuel : 255 < e.fuel := Nat.lt_of_le_of_lt (Nat.le_max_left _ _) hgood.fuel
  have hselected : (v.head.floppySelect ⟨0, Nat.zero_lt_two⟩).Synced :=
    ⟨⟨rfl, hsync.step⟩, rfl, hsync.count⟩
  -- the FM interface
  obtain ⟨t₁, hsync₁, hhead₁, hside₁, hseek₁⟩ :=
    Drive.seek_settles (v := ⟨v.head.floppySelect ⟨0, Nat.zero_lt_two⟩, v.tracks⟩) hselected
      (show 254 ≤ 255 by decide) 0
  have hcurrent₁ : (⟨t₁, v.tracks⟩ : Drive).current = v.tracks 254 false := by
    rw [Drive.current, hhead₁, hside₁]
    rfl
  obtain ⟨c, hc⟩ : ∃ c, c = e.fm (v.tracks 254 false) := ⟨_, rfl⟩
  have hfmGood : c.FmGood (v.tracks 254 false) := hc ▸ hgood.fm _
  have hfmLen := hfmHolds.length_eq
  obtain ⟨lead, gap3, pre, post, hformatted, hother⟩ := hfmHolds
  have hread := hformatted.ibmFmReadSector_spec (s := ⟨daFmIdam, fmData⟩) hother hfmGood.timely
    hfmGood.fuel c.mem c.buffers.1 c.buffers.2 c.start
  have hsig₁ : (m.stBytes e.p fmData).Holds e.sig daSig :=
    hgood.sig.beside hgood.beside hfmLen.le
  have hsame := strcmp_sig (hfmSigned.holds m e.p) hsig₁
  -- the MFM interface
  obtain ⟨t₂, hsync₂, hhead₂, hside₂, hseek₂⟩ :=
    Drive.seek_settles (v := ⟨t₁, v.tracks⟩) hsync₁ (Nat.le_refl 255) 0
  have hcurrent₂ : (⟨t₂, v.tracks⟩ : Drive).current = v.tracks 255 false := by
    rw [Drive.current, hhead₂, hside₂]
    rfl
  have hstatus := daCheckStatus_spec hholds hsigned (hgood.first _) hsig₁ hgood.beside
  refine ⟨t₂, hsync₂, hhead₂, ?_⟩
  rw [daTest, hseek₁ e.fuel hfuel]
  simp only [Option.bind_eq_bind, Option.bind_some, hcurrent₁, ← hc, hread, hseek₂ e.fuel hfuel,
    hcurrent₂, hstatus, hsame, ne_eq, not_true_eq_false, decide_false, Bool.or_false]

/-- **`da_select_image`** on a drive that answers: silent, it leaves the command in the status
sector and nothing else anywhere, and the head at cylinder 0 when the disk has been changed.  It
returns if and only if that happens in time. -/
theorem daSelectImage_spec {e : DaEnv} {m : Mem} (hgood : e.Good m) {a : Nat} {name : List Byte}
    (hname : e.Named m a name) {v : Drive} (hsync : v.head.Synced) (hanswers : Answers v.tracks) :
    ∃ r, daSelectImage e v m a = some r ∧ r.warned = false ∧
      (r.bug = false ↔ e.change.InTime) ∧ r.drive.head.Synced ∧ r.drive.head.head = 0 ∧
      (∃ command, r.command.MfmHolds daIdam command ∧ Selects name command) ∧
      r.drive.tracks = e.mount (e.answer fun cyl side =>
        if cyl = 255 ∧ side = false then r.command else v.tracks cyl side) ∧
      Answers r.drive.tracks := by
  obtain ⟨data, hholds, hsigned⟩ := hanswers.status
  have hfuel : 255 < e.fuel := Nat.lt_of_le_of_lt (Nat.le_max_left _ _) hgood.fuel
  obtain ⟨t, hsync₁, hhead, hside, hseek⟩ := Drive.seek_settles hsync (Nat.le_refl 255) 0
  have hcurrent : (⟨t, v.tracks⟩ : Drive).current = v.tracks 255 false := by
    rw [Drive.current, hhead, hside]
    rfl
  -- the status, and the command over it
  have hstatus := daCheckStatus_spec hholds hsigned (hgood.first _) hgood.sig hgood.beside
  obtain ⟨m₁, m₂, command, hsigCopied, hnameCopied, rfl, hlen, hselects⟩ :=
    daCommand_spec hgood hname hholds.length_status
  have hbytes : (m.stBytes e.p command).bytes e.p 512 = command := by
    have hall := Mem.bytes_stBytes m e.p command
    rwa [hlen] at hall
  obtain ⟨c, hc⟩ : ∃ c, c = e.write (v.tracks 255 false) := ⟨_, rfl⟩
  obtain ⟨w, hwrite, hwarned, hafter⟩ := hholds.write (hc ▸ hgood.write _ : c.Good _) hlen
  -- what the drive makes of it
  obtain ⟨tracks, htracks⟩ : ∃ tracks : Nat → Bool → Disk, tracks = fun cyl side =>
      if cyl = 255 ∧ side = false then w.disk else v.tracks cyl side := ⟨_, rfl⟩
  have hrecord : ((⟨t, v.tracks⟩ : Drive).record w.disk).tracks = tracks := by
    rw [Drive.record, hhead, hside, htracks]
    rfl
  have hcommanded : Answers tracks := htracks ▸ hanswers.command hafter hselects
  have hreplied := hgood.answer tracks hcommanded
  obtain ⟨data', hholds', hsigned'⟩ := hreplied.status
  have hcurrent' : (⟨t, e.answer tracks⟩ : Drive).current = e.answer tracks 255 false := by
    rw [Drive.current, hhead, hside]
    rfl
  have hsig₂ : (m.stBytes e.p command).Holds e.sig daSig :=
    hgood.sig.beside hgood.beside hlen.le
  have hstatus' := daCheckStatus_spec hholds' hsigned' (hgood.second _) hsig₂ hgood.beside
  -- the disk change
  obtain ⟨c', hsync', hzero, hbug, hend⟩ :=
    Head.floppyDiskChange_settles hsync₁ (by omega) e.change
  refine ⟨⟨⟨c'.head, e.mount (e.answer tracks)⟩, w.disk, false, c'.bug⟩, ?_, rfl, hbug, hsync',
    hzero, ⟨command, hafter, hselects⟩, by rw [htracks], hgood.mount _ hreplied⟩
  rw [daSelectImage, hseek e.fuel hfuel]
  simp only [Option.bind_eq_bind, Option.bind_some, hcurrent, hstatus, hsigCopied, hnameCopied,
    hbytes, ← hc, hwrite, hrecord, hcurrent', hstatus', hend.enough e.fuel hgood.fuel, hwarned,
    Bool.or_false]

/-! ## Runs -/

/-- A drive, the commands it has been sent with the names they were for, the last one in front,
and whether a `WARN_ON` has fired. -/
structure DaSession where
  drive : Drive
  sent : List (Disk × List Byte)
  warned : Bool

/-- A step of a session: a call that returns, or whatever else is done with the drive, as long
as unit 0 stays in step and the status sectors stay. -/
inductive DaStep : DaSession → DaSession → Prop where
  | test {e : DaEnv} {m : Mem} {s : DaSession} {r : Drive × Bool} :
      e.Good m → daTest e s.drive m = some r →
      DaStep s ⟨r.1, s.sent, s.warned || r.2⟩
  | select {e : DaEnv} {m : Mem} {a : Nat} {name : List Byte} {s : DaSession} {r : DaResult} :
      e.Good m → e.Named m a name → daSelectImage e s.drive m a = some r → r.bug = false →
      DaStep s ⟨r.drive, (r.command, name) :: s.sent, s.warned || r.warned⟩
  | other {s : DaSession} {v : Drive} : v.head.Synced → Answers v.tracks →
      DaStep s { s with drive := v }

/-- What every session keeps. -/
structure DaSession.Kept (s : DaSession) : Prop where
  synced : s.drive.head.Synced
  answers : Answers s.drive.tracks
  silent : s.warned = false
  sent : ∀ c ∈ s.sent, ∃ command, c.1.MfmHolds daIdam command ∧ Selects c.2 command

theorem DaStep.keeps {s s' : DaSession} (hstep : DaStep s s') (h : s.Kept) : s'.Kept := by
  cases hstep with
  | @test e m _ r hgood hcall =>
    obtain ⟨t, hsync, -, hspec⟩ := daTest_spec hgood h.synced h.answers
    obtain rfl := Option.some.inj (hspec.symm.trans hcall)
    exact ⟨hsync, h.answers, by rw [h.silent]; rfl, h.sent⟩
  | @select e m a name _ r hgood hname hcall hreturn =>
    obtain ⟨r', hspec, hwarned, -, hsync, -, hcommand, -, hanswers⟩ :=
      daSelectImage_spec hgood hname h.synced h.answers
    obtain rfl := Option.some.inj (hspec.symm.trans hcall)
    refine ⟨hsync, hanswers, by rw [h.silent, hwarned]; rfl, fun c hc => ?_⟩
    rcases List.mem_cons.mp hc with rfl | hc
    · exact hcommand
    · exact h.sent c hc
  | other hsync hanswers => exact ⟨hsync, hanswers, h.silent, h.sent⟩

/-- **The Direct Access protocol** with a drive that answers, from `floppy_init` on: whatever
the drive makes of the commands, whatever it mounts, and whatever else is done with it between
the calls, no `WARN_ON` has fired, and every command it was sent is to select the image that was
meant.  Then both calls can be made once more without a warning, and `da_select_image` returns
if and only if the disk is changed in time. -/
theorem da_session_silent (s₀ : Head) {tracks : Nat → Bool → Disk} (hanswers : Answers tracks) :
    ∃ s₁, Settles (fun fuel => s₀.floppyInit fuel) s₀.head s₁ ∧
      ∀ s, Relation.ReflTransGen DaStep ⟨⟨s₁.floppySelect 0, tracks⟩, [], false⟩ s →
        s.warned = false ∧
        (∀ c ∈ s.sent, ∃ command, c.1.MfmHolds daIdam command ∧ Selects c.2 command) ∧
        ∀ e m, e.Good m →
          (∃ v, daTest e s.drive m = some (v, false)) ∧
          ∀ a name, e.Named m a name →
            ∃ r, daSelectImage e s.drive m a = some r ∧ r.warned = false ∧
              (r.bug = false ↔ e.change.InTime) := by
  obtain ⟨s₁, hsync, hinit⟩ := Head.floppyInit_settles s₀
  refine ⟨s₁, hinit, fun s hrun => ?_⟩
  have hkept : s.Kept := run_invariant (fun _ _ hstep h => hstep.keeps h) hrun
    ⟨hsync, hanswers, rfl, fun c hc => absurd hc List.not_mem_nil⟩
  refine ⟨hkept.silent, hkept.sent, fun e m hgood => ⟨?_, fun a name hname => ?_⟩⟩
  · obtain ⟨t, -, -, hspec⟩ := daTest_spec hgood hkept.synced hkept.answers
    exact ⟨_, hspec⟩
  · obtain ⟨r, hspec, hwarned, hbug, -⟩ :=
      daSelectImage_spec hgood hname hkept.synced hkept.answers
    exact ⟨r, hspec, hwarned, hbug⟩

/-! ## A drive that answers -/

/-- A revolution with given sectors. -/
def mfmDisk (gap3 : Nat) (secs : List Sector) : Disk :=
  Disk.ofBits ((trackWords false (trackItems gap3 secs)).flatMap bitsOf)

theorem mfmDisk_formatted (gap3 : Nat) {secs : List Sector}
    (hdata : ∀ s ∈ secs, s.data.length = s.idam.size) :
    (mfmDisk gap3 secs).Formatted gap3 secs [] := by
  have hsize : (mfmDisk gap3 secs).size = 16 * (trackItems gap3 secs).length := by
    rw [mfmDisk, Disk.ofBits, length_flatMap_bitsOf, length_trackWords]
  have hitems : trackItems gap3 secs ++ codedItems [] = trackItems gap3 secs := List.append_nil _
  refine ⟨⟨false, trackWords false (trackItems gap3 secs), ?_, fun r _ hlt => ?_⟩, hsize.ge,
    by rw [hitems, hsize], hdata⟩
  · rw [hitems]
    exact coded_trackWords false fun it hit => (sound_trackItems hit).2
  · show ((trackWords false (trackItems gap3 secs)).flatMap bitsOf).getD r false = _
    rw [List.getD_eq_getElem?_getD, getElem?_flatMap_bitsOf _ r hlt, Option.getD_some]

/-- A status: the signature, and nothing else. -/
def plainStatus : List Byte := daSig ++ List.replicate 505 0

theorem length_plainStatus : plainStatus.length = 512 := by
  rw [plainStatus, List.length_append, List.length_replicate]
  rfl

theorem signed_plainStatus : Signed plainStatus := rfl

/-- The status cylinders, and other tracks. -/
def answering (tracks : Nat → Bool → Disk) : Nat → Bool → Disk := fun cyl side =>
  if cyl = 255 then mfmDisk 84 [⟨daIdam, plainStatus⟩]
  else if cyl = 254 then fmDisk 40 27 [⟨daFmIdam, plainStatus⟩] 40
  else tracks cyl side

theorem answers_answering (tracks : Nat → Bool → Disk) : Answers (answering tracks) := by
  have hmfm : (mfmDisk 84 [⟨daIdam, plainStatus⟩]).Formatted 84 [⟨daIdam, plainStatus⟩] [] := by
    refine mfmDisk_formatted 84 fun s hs => ?_
    rw [List.mem_singleton.mp hs]
    exact length_plainStatus
  have hfm : (fmDisk 40 27 [⟨daFmIdam, plainStatus⟩] 40).FmFormatted 40 27
      [⟨daFmIdam, plainStatus⟩] := by
    refine fmDisk_formatted 40 27 (by decide) fun s hs => ?_
    rw [List.mem_singleton.mp hs]
    exact length_plainStatus
  exact ⟨⟨plainStatus, ⟨84, [], [], [], hmfm, by simp, by decide⟩, signed_plainStatus⟩,
    plainStatus, ⟨40, 27, [], [], hfm, by simp⟩, signed_plainStatus⟩

/-- A call that takes no time between its reads. -/
def promptCall (d : Disk) : IbmCall := ⟨fun _ => 0, (0, 4096), d.size, 0, id⟩

theorem timely_id (d : Disk) (n : Nat) : d.Timely n id :=
  fun _ _ => ⟨Nat.le_refl _, fun _ hle hlt => absurd hlt (Nat.not_lt_of_le hle)⟩

theorem fmTimely_id (d : Disk) (n : Nat) : d.FmTimely n id :=
  fun _ _ => ⟨Nat.le_refl _, fun _ hle hlt => absurd hlt (Nat.not_lt_of_le hle)⟩

/-- A drive that changes the disk at once. -/
def promptDa (mount : (Nat → Bool → Disk) → Nat → Bool → Disk) : DaEnv :=
  ⟨300, 1000, 0, promptCall, promptCall, promptCall, id, promptCall, ⟨fun _ => 0, 0, 0, 0⟩, mount⟩

theorem promptDa_good {mount : (Nat → Bool → Disk) → Nat → Bool → Disk}
    (hmount : ∀ tracks, Answers tracks → Answers (mount tracks)) {m : Mem}
    (hsig : m.Holds 0 daSig) : (promptDa mount).Good m where
  fuel := show max 255 0 < 300 by decide
  sig := hsig
  beside := .inl (show 0 + 7 < 1000 by decide)
  fm := fun d => ⟨Nat.le_refl _, fmTimely_id d 8⟩
  first := fun d => ⟨Nat.le_refl _, timely_id d 10⟩
  write := fun d => ⟨Nat.le_refl _, timely_id d 10⟩
  second := fun d => ⟨Nat.le_refl _, timely_id d 10⟩
  answer := fun _ h => h
  mount := hmount

theorem promptDa_inTime (mount : (Nat → Bool → Disk) → Nat → Bool → Disk) :
    (promptDa mount).change.InTime :=
  ⟨fun i hi => absurd hi (Nat.not_lt_zero i), fun i hi => absurd hi (Nat.not_lt_zero i),
    fun i hi => absurd hi (Nat.not_lt_zero i)⟩

/-- Such a drive, told to change to the image `A`. -/
theorem da_session_silent_one_image :
    ∃ s₁ : Head, ∃ tracks s,
      Relation.ReflTransGen DaStep ⟨⟨s₁.floppySelect 0, tracks⟩, [], false⟩ s ∧
        s.sent.map Prod.snd = [[ch 'A']] ∧ s.warned = false := by
  obtain ⟨m, hm⟩ : ∃ m : Mem, m =
      Mem.stBytes (Mem.stBytes (fun _ => 0) 0 daSig) 100 [ch 'A'] := ⟨_, rfl⟩
  have hsig : m.Holds 0 daSig := hm ▸ rfl
  have hholds : m.Holds 100 [ch 'A'] := hm ▸ rfl
  have hgood : (promptDa id).Good m := promptDa_good (fun _ h => h) hsig
  have hname : (promptDa id).Named m 100 [ch 'A'] :=
    ⟨hholds, by decide, .inl (show 100 + 1 < 1000 by decide), by decide, show 1 < 300 by decide⟩
  obtain ⟨s₁, -, hsession⟩ := da_session_silent
    ⟨fun _ => 0, 0, false, false, false, false, 5, 0⟩ (answers_answering fun _ _ => mfmDisk 84 [])
  obtain ⟨r, hr, -, hbug⟩ := ((hsession _ .refl).2.2 _ m hgood).2 100 [ch 'A'] hname
  have hrun := Relation.ReflTransGen.single (DaStep.select
    (s := ⟨⟨s₁.floppySelect 0, answering fun _ _ => mfmDisk 84 []⟩, [], false⟩) hgood hname hr
    (hbug.mpr (promptDa_inTime id)))
  exact ⟨s₁, _, _, hrun, rfl, (hsession _ hrun).1⟩

end FlashFloppyTestbed
