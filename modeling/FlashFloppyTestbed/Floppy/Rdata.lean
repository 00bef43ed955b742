/-
  Floppy/Rdata.lean --- the read path of `src/floppy_generic.c`: from captured
  timer values to bitcells.

  `rdata_wait_sync` and `rdata_flux_to_bc` are written as the C code is, with
  its locals carried through the loops.  Each is then shown to be a function of
  the list of flux intervals it consumes: `rdata_wait_sync` is `Sync.scan`, a
  shift register compared with a sync mark after every interval, and
  `rdata_flux_to_bc` pushes the bitcells of each interval (`fluxBits`) into the
  output buffer one at a time (`putCells`).

  The two use different quantisers.  `rdata_wait_sync` divides; its shift by the
  quotient is undefined in C from 32 on and clears the register on this target,
  as it does here.  `rdata_flux_to_bc` subtracts one cell at a time.

  Left out is the `WARN_ON(TRUE)` of both loops, behind the message "Long flux", on an
  interval of more than six cells.  It changes nothing that the functions read or
  return, and the warnings of their callers, here as in `Disk/`, do not count it.
-/
import FlashFloppyTestbed.Floppy.Dma
import FlashFloppyTestbed.Memory

set_option autoImplicit false

namespace FlashFloppyTestbed.Floppy

open FlashFloppyTestbed.Foundation

/-! ## State -/

/-- `SYNC_*`. -/
inductive Sync where
  | none
  | fm
  | mfm
  deriving DecidableEq, Repr

/-- `struct read`.  `bcProd` counts bitcells of a buffer in memory once the sync
mark has been found, and wraps as a `uint32_t` before that. -/
structure Read where
  /-- Bitcell input buffer. -/
  p : Nat
  /-- Number of words (16-bitcells) to read. -/
  nrWords : Nat
  /-- If not `none`, delay read until indicated FM/MFM sync mark. -/
  sync : Sync
  /-- Time at which the read started. -/
  start : BitVec 32
  /-- Time at which the read ended. -/
  endTime : BitVec 32
  /-- Tail of bitcell stream. -/
  bcWindow : BitVec 32
  /-- Progress through output buffer (in bitcells). -/
  bcProd : Nat

/-- The state of a read in progress: `struct read`, `dma_r` and its channel. -/
structure Rx where
  rd : Read
  /-- `dma_r.cons` -/
  cons : BitVec 16
  /-- `dma_r.prev_sample` -/
  prevSample : BitVec 16
  /-- `dma_r.buf` -/
  buf : Nat → BitVec 16
  /-- `dma_rdata.cndtr` -/
  cndtr : Cndtr

/-! ## `rdata_wait_sync` -/

/-- `nr = (curr - (cell>>1)) / cell + 1`, in `int`. -/
def waitNr (cell curr : BitVec 16) : Nat :=
  (((curr.toNat : Int) - (cell >>> 1).toNat).tdiv cell.toNat + 1).toNat

/-- `sync_found`: the number of bitcells of a sync mark that fills `bc_dat`, or 0. -/
def Sync.found (sync : Sync) (bcDat : BitVec 32) : Nat :=
  if sync = .fm then
    -- 1010 1010 1010 1010 1x1x 0x0x 0x1x 1x1x
    if bcDat &&& 0xffffd555 = 0x55555015 then 31 else 0
  else
    if bcDat = 0x44894489 then 32 else 0

/-- The locals of the two loops. -/
structure RdLocals where
  cons : BitVec 16
  prev : BitVec 16
  bcDat : BitVec 32
  bcProd : Nat

/-- The loop of `rdata_wait_sync`, and `sync_found` behind it.  A ring index
meets `prod` within `ringSize` iterations. -/
def waitSyncLoop (sync : Sync) (cell : BitVec 16) (buf : Nat → BitVec 16) (prod : BitVec 16) :
    Nat → RdLocals → RdLocals × Nat
  | 0, l => (l, 0)
  | fuel + 1, l =>
      if l.cons = prod then (l, 0)
      else
        let next := buf l.cons.toNat
        let curr := next - l.prev
        let nr := waitNr cell curr
        let bcDat := (l.bcDat <<< nr) ||| 1
        let l : RdLocals :=
          ⟨(l.cons + 1) &&& bufMask, next, bcDat, (l.bcProd + nr) % 2 ^ 32⟩
        if sync.found bcDat ≠ 0 then (l, sync.found bcDat)
        else waitSyncLoop sync cell buf prod fuel l

/-- `rdata_wait_sync(rd)`, polled at time `now`. -/
def rdataWaitSync (ticksPerCell now : BitVec 32) (m : Mem) (rx : Rx) : Mem × Rx × Bool :=
  let cell := ticksPerCell.setWidth 16
  let prod := rx.cndtr.index
  let (l, syncFound) := waitSyncLoop rx.rd.sync cell rx.buf prod ringSize
    ⟨rx.cons, rx.prevSample, rx.rd.bcWindow, rx.rd.bcProd⟩
  let rx := { rx with cons := l.cons, prevSample := l.prev }
  if syncFound ≠ 0 then
    let cell := (((now - rx.rd.start) <<< 4) / BitVec.ofNat 32 l.bcProd).setWidth 16
    let start := now - ((BitVec.ofNat 32 syncFound * cell.setWidth 32) >>> 4)
    let rd := { rx.rd with bcWindow := l.bcDat, start := start, bcProd := syncFound }
    (m.st32 rd.p (htobe32 l.bcDat), { rx with rd := rd }, true)
  else
    (m, { rx with rd := { rx.rd with bcWindow := l.bcDat, bcProd := l.bcProd } }, false)

/-! ## `rdata_flux_to_bc` -/

/-- The output side of `rdata_flux_to_bc`. -/
structure Cells where
  m : Mem
  bcDat : BitVec 32
  bcProd : Nat

/-- One bitcell: it is shifted into `bc_dat`, and every 32nd is followed by a
store.  The flag is `return TRUE`. -/
def putCell (p bcMax : Nat) (b : Bool) (c : Cells) : Cells × Bool :=
  let bcDat := if b then (c.bcDat <<< 1) ||| 1 else c.bcDat <<< 1
  let bcProd := c.bcProd + 1
  if bcProd % 32 = 0 then
    (⟨c.m.st32 (p + 4 * ((bcProd - 1) / 32)) (htobe32 bcDat), bcDat, bcProd⟩, bcProd = bcMax)
  else (⟨c.m, bcDat, bcProd⟩, false)

/-- The bitcells of one flux interval: the loop `while (curr > window)` and the
set bit behind it. -/
def putInterval (p bcMax : Nat) (cell window : BitVec 16) :
    Nat → BitVec 16 → Cells → Cells × Bool
  | 0, _, c => (c, false)
  | fuel + 1, curr, c =>
      if window < curr then
        let (c, full) := putCell p bcMax false c
        if full then (c, true) else putInterval p bcMax cell window fuel (curr - cell) c
      else putCell p bcMax true c

/-- Iterations granted to the inner loop.  It either fills the buffer, or `curr`
leaves it before the subtraction has come full circle; a `curr` that never does
(possible only when `window` has wrapped) fills the buffer. -/
def intervalFuel (bcMax : Nat) : Nat := bcMax + 2 ^ 16

/-- The outer loop of `rdata_flux_to_bc`. -/
def fluxToBcLoop (p bcMax : Nat) (cell window : BitVec 16) (buf : Nat → BitVec 16)
    (prod : BitVec 16) : Nat → BitVec 16 → BitVec 16 → Cells → BitVec 16 × BitVec 16 × Cells × Bool
  | 0, cons, prev, c => (cons, prev, c, false)
  | fuel + 1, cons, prev, c =>
      if cons = prod then (cons, prev, c, false)
      else
        let next := buf cons.toNat
        let r := putInterval p bcMax cell window (intervalFuel bcMax) (next - prev) c
        if r.2 then (cons, next, r.1, true)
        else fluxToBcLoop p bcMax cell window buf prod fuel ((cons + 1) &&& bufMask) next r.1

/-- `rdata_flux_to_bc(rd)`: progress is saved only on the exit that returns `FALSE`. -/
def rdataFluxToBc (ticksPerCell : BitVec 32) (m : Mem) (rx : Rx) : Mem × Rx × Bool :=
  let cell := ticksPerCell.setWidth 16
  let window := cell + (cell >>> 1)
  let bcMax := rx.rd.nrWords * 16
  let prod := rx.cndtr.index
  let (cons, prev, c, full) := fluxToBcLoop rx.rd.p bcMax cell window rx.buf prod ringSize
    rx.cons rx.prevSample ⟨m, rx.rd.bcWindow, rx.rd.bcProd⟩
  if full then (c.m, rx, true)
  else
    let rd := { rx.rd with bcWindow := c.bcDat, bcProd := c.bcProd }
    (c.m, { rx with rd := rd, cons := cons, prevSample := prev }, false)

/-- `floppy_read_prep(rd)` with `cnt = tim_rdata->cnt` and what `dma_r.buf` held
before; `none` is a failed `ASSERT`. -/
def floppyReadPrep (rd : Read) (cnt : BitVec 16) (buf : Nat → BitVec 16) : Option Rx :=
  if rd.p % 4 = 0 ∧ rd.nrWords % 2 = 0 then
    some
      { rd := { rd with bcWindow := ~~~0, bcProd := 0 }
        cons := 0
        prevSample := cnt
        buf := buf
        cndtr := Cndtr.start }
  else none

/-! ## Flux intervals -/

/-- The intervals between captured timer values, the first one counted from `prev`. -/
def intervals (prev : BitVec 16) : List (BitVec 16) → List (BitVec 16)
  | [] => []
  | next :: l => (next - prev) :: intervals next l

@[simp] theorem length_intervals (l : List (BitVec 16)) :
    ∀ prev, (intervals prev l).length = l.length := by
  induction l with
  | nil => intro prev; rfl
  | cons next l ih => intro prev; simp [intervals, ih]

theorem intervals_append (l₁ l₂ : List (BitVec 16)) : ∀ prev,
    intervals prev (l₁ ++ l₂) = intervals prev l₁ ++ intervals (l₁.getLastD prev) l₂ := by
  induction l₁ with
  | nil => intro prev; rfl
  | cons next l ih =>
    intro prev
    rw [List.cons_append, intervals, ih, intervals, List.cons_append, List.getLastD_cons]

/-! ## Waiting is scanning -/

/-- What a scan for a sync mark returns. -/
structure Scan where
  /-- The last 32 bitcells. -/
  window : BitVec 32
  /-- They end with the mark. -/
  found : Bool
  /-- The intervals behind the mark. -/
  rest : List (BitVec 16)

/-- Shift the bitcells of one interval after the other into a register until it
shows a sync mark. -/
def Sync.scan (sync : Sync) (cell : BitVec 16) : BitVec 32 → List (BitVec 16) → Scan
  | w, [] => ⟨w, false, []⟩
  | w, curr :: l =>
      let w := (w <<< waitNr cell curr) ||| 1
      if sync.found w ≠ 0 then ⟨w, true, l⟩ else sync.scan cell w l

theorem Sync.scan_rest_suffix (sync : Sync) (cell : BitVec 16) (l : List (BitVec 16)) :
    ∀ w, (sync.scan cell w l).rest <:+ l := by
  induction l with
  | nil => intro w; exact List.suffix_refl _
  | cons curr l ih =>
    intro w
    simp only [Sync.scan]
    split
    · exact List.suffix_cons _ _
    · exact (ih _).trans (List.suffix_cons _ _)

/-- A scan that finds nothing reads everything. -/
theorem Sync.scan_rest_of_not_found (sync : Sync) (cell : BitVec 16) (l : List (BitVec 16)) :
    ∀ w, (sync.scan cell w l).found = false → (sync.scan cell w l).rest = [] := by
  induction l with
  | nil => intro w _; rfl
  | cons curr l ih =>
    intro w h
    simp only [Sync.scan] at h ⊢
    split
    · rename_i hfound
      rw [if_pos hfound] at h
      cases h
    · rename_i hfound
      rw [if_neg hfound] at h
      exact ih _ h

/-- A scan that has found the mark shows it. -/
theorem Sync.scan_found (sync : Sync) (cell : BitVec 16) (l : List (BitVec 16)) :
    ∀ w, (sync.scan cell w l).found = true → sync.found (sync.scan cell w l).window ≠ 0 := by
  induction l with
  | nil => intro w h; cases h
  | cons curr l ih =>
    intro w h
    simp only [Sync.scan] at h ⊢
    split
    · assumption
    · rename_i hfound
      rw [if_neg hfound] at h
      exact ih _ h

/-- A scan over a concatenation: it stops in the first part, or goes on from the
register that the first part leaves. -/
theorem Sync.scan_append (sync : Sync) (cell : BitVec 16) (l₁ l₂ : List (BitVec 16)) : ∀ w,
    sync.scan cell w (l₁ ++ l₂) =
      if (sync.scan cell w l₁).found then
        { sync.scan cell w l₁ with rest := (sync.scan cell w l₁).rest ++ l₂ }
      else sync.scan cell (sync.scan cell w l₁).window l₂ := by
  induction l₁ with
  | nil => intro w; simp [Sync.scan]
  | cons curr l ih =>
    intro w
    rw [List.cons_append]
    simp only [Sync.scan]
    by_cases hfound : sync.found ((w <<< waitNr cell curr) ||| 1) ≠ 0
    · simp only [if_pos hfound, if_true]
    · simp only [if_neg hfound]
      exact ih _

/-- **The loop of `rdata_wait_sync` is a scan of the intervals outstanding in the
ring**, and leaves its index and previous sample at the last one it has read. -/
theorem waitSyncLoop_eq (sync : Sync) (cell : BitVec 16) (buf : Nat → BitVec 16) (k : Nat) :
    ∀ (prod : BitVec 16) (c fuel : Nat) (l : RdLocals), k ≤ fuel → k < ringSize →
      l.cons.toNat = c % ringSize → prod.toNat = (c + k) % ringSize →
      let q := window buf ringSize c k
      let sc := sync.scan cell l.bcDat (intervals l.prev q)
      let r := waitSyncLoop sync cell buf prod fuel l
      r.1.cons.toNat = (c + (k - sc.rest.length)) % ringSize ∧
        r.1.prev = (q.take (k - sc.rest.length)).getLastD l.prev ∧
        r.1.bcDat = sc.window ∧
        r.2 = if sc.found then sync.found sc.window else 0 := by
  induction k with
  | zero =>
    intro prod c fuel l _ _ hcons hprod
    have heq : l.cons = prod := BitVec.eq_of_toNat_eq (hcons.trans hprod.symm)
    cases fuel <;> simp [waitSyncLoop, Sync.scan, intervals, heq, hprod]
  | succ k ih =>
    intro prod c fuel l hfuel hk hcons hprod
    obtain ⟨fuel, rfl⟩ : ∃ f, fuel = f + 1 := ⟨fuel - 1, by omega⟩
    have hne : l.cons ≠ prod := by
      intro h
      have := congrArg BitVec.toNat h
      simp only [ringSize] at *
      omega
    have hnext : ((l.cons + 1) &&& bufMask).toNat = (c + 1) % ringSize := by
      have h1 : (1 : BitVec 16).toNat = 1 := rfl
      rw [toNat_and_bufMask, BitVec.toNat_add, hcons, h1]
      simp only [ringSize]
      omega
    have hslot : buf l.cons.toNat = buf (c % ringSize) := by rw [hcons]
    simp only [window_succ, intervals, Sync.scan, waitSyncLoop, if_neg hne, hslot]
    by_cases hfound :
        sync.found ((l.bcDat <<< waitNr cell (buf (c % ringSize) - l.prev)) ||| 1) ≠ 0
    · simp only [if_pos hfound, if_true, length_intervals, length_window]
      rw [Nat.add_sub_cancel_left]
      exact ⟨hnext, rfl, trivial, trivial⟩
    · simp only [if_neg hfound]
      have hrec := ih prod (c + 1) fuel
        ⟨(l.cons + 1) &&& bufMask, buf (c % ringSize),
          (l.bcDat <<< waitNr cell (buf (c % ringSize) - l.prev)) ||| 1,
          (l.bcProd + waitNr cell (buf (c % ringSize) - l.prev)) % 2 ^ 32⟩
        (by omega) (by omega) hnext (by rw [hprod]; congr 1; omega)
      simp only at hrec
      have hle := (sync.scan_rest_suffix cell
        (intervals (buf (c % ringSize)) (window buf ringSize (c + 1) k))
        ((l.bcDat <<< waitNr cell (buf (c % ringSize) - l.prev)) ||| 1)).length_le
      rw [length_intervals, length_window] at hle
      generalize sync.scan cell ((l.bcDat <<< waitNr cell (buf (c % ringSize) - l.prev)) ||| 1)
        (intervals (buf (c % ringSize)) (window buf ringSize (c + 1) k)) = sc at hrec hle ⊢
      obtain ⟨h₁, h₂, h₃, h₄⟩ := hrec
      have hcount : k + 1 - sc.rest.length = (k - sc.rest.length) + 1 := by omega
      refine ⟨?_, ?_, h₃, h₄⟩
      · rw [h₁, hcount]
        congr 1
        omega
      · rw [h₂, hcount, List.take_succ_cons, List.getLastD_cons]

/-- A poll of `rdata_wait_sync` leaves the inputs of the read and the engine's
side of the ring alone. -/
theorem rdataWaitSync_frame (ticksPerCell now : BitVec 32) (m : Mem) (rx : Rx) :
    let r := (rdataWaitSync ticksPerCell now m rx).2.1
    r.buf = rx.buf ∧ r.cndtr = rx.cndtr ∧ r.rd.p = rx.rd.p ∧ r.rd.nrWords = rx.rd.nrWords ∧
      r.rd.sync = rx.rd.sync := by
  simp only [rdataWaitSync]
  split <;> exact ⟨rfl, rfl, rfl, rfl, rfl⟩

/-- **A poll of `rdata_wait_sync` with `k` captures outstanding** scans them, and
stores the register once it shows the mark. -/
theorem rdataWaitSync_spec (ticksPerCell now : BitVec 32) (m : Mem) (rx : Rx) {c k : Nat}
    (hk : k < ringSize) (hcons : rx.cons.toNat = c % ringSize)
    (hprod : rx.cndtr.index.toNat = (c + k) % ringSize) :
    let q := window rx.buf ringSize c k
    let sc := rx.rd.sync.scan (ticksPerCell.setWidth 16) rx.rd.bcWindow
      (intervals rx.prevSample q)
    let r := rdataWaitSync ticksPerCell now m rx
    r.2.2 = sc.found ∧ r.2.1.rd.bcWindow = sc.window ∧
      r.2.1.cons.toNat = (c + (k - sc.rest.length)) % ringSize ∧
      r.2.1.prevSample = (q.take (k - sc.rest.length)).getLastD rx.prevSample ∧
      (sc.found = false → r.1 = m) ∧
      (sc.found = true → r.1 = m.st32 rx.rd.p (htobe32 sc.window) ∧
        r.2.1.rd.bcProd = rx.rd.sync.found sc.window) := by
  obtain ⟨h₁, h₂, h₃, h₄⟩ := waitSyncLoop_eq rx.rd.sync (ticksPerCell.setWidth 16) rx.buf k
    rx.cndtr.index c ringSize ⟨rx.cons, rx.prevSample, rx.rd.bcWindow, rx.rd.bcProd⟩ (by omega) hk
    hcons hprod
  simp only at h₁ h₂ h₃ h₄
  have hne := rx.rd.sync.scan_found (ticksPerCell.setWidth 16)
    (intervals rx.prevSample (window rx.buf ringSize c k)) rx.rd.bcWindow
  simp only [rdataWaitSync]
  generalize waitSyncLoop rx.rd.sync (ticksPerCell.setWidth 16) rx.buf rx.cndtr.index ringSize
    ⟨rx.cons, rx.prevSample, rx.rd.bcWindow, rx.rd.bcProd⟩ = r at h₁ h₂ h₃ h₄ ⊢
  generalize rx.rd.sync.scan (ticksPerCell.setWidth 16) rx.rd.bcWindow
    (intervals rx.prevSample (window rx.buf ringSize c k)) = sc at h₁ h₂ h₃ h₄ hne ⊢
  cases hfound : sc.found with
  | false =>
    rw [hfound, if_neg Bool.false_ne_true] at h₄
    simp only [h₄, ne_eq, not_true_eq_false, if_false]
    exact ⟨trivial, h₃, h₁, h₂, fun _ => trivial, fun h => absurd h Bool.false_ne_true⟩
  | true =>
    rw [hfound, if_pos rfl] at h₄
    have hpos : r.2 ≠ 0 := h₄ ▸ hne hfound
    simp only [if_pos hpos]
    refine ⟨trivial, h₃, h₁, h₂, fun h => absurd h.symm Bool.false_ne_true, fun _ => ⟨?_, h₄⟩⟩
    rw [h₃]

/-! ## Reading is pushing bitcells -/

/-- The bitcells of one flux interval, as `rdata_flux_to_bc` quantises it. -/
def fluxBits (cell window : BitVec 16) : Nat → BitVec 16 → List Bool
  | 0, _ => []
  | fuel + 1, curr =>
      if window < curr then false :: fluxBits cell window fuel (curr - cell) else [true]

/-- Push bitcells until the buffer is full. -/
def putCells (p bcMax : Nat) : List Bool → Cells → Cells × Bool
  | [], c => (c, false)
  | b :: l, c =>
      let r := putCell p bcMax b c
      if r.2 then (r.1, true) else putCells p bcMax l r.1

theorem putCells_append (p bcMax : Nat) (l₁ l₂ : List Bool) : ∀ c,
    putCells p bcMax (l₁ ++ l₂) c =
      if (putCells p bcMax l₁ c).2 then putCells p bcMax l₁ c
      else putCells p bcMax l₂ (putCells p bcMax l₁ c).1 := by
  induction l₁ with
  | nil => intro c; simp [putCells]
  | cons b l ih =>
    intro c
    rw [List.cons_append]
    simp only [putCells]
    by_cases hfull : (putCell p bcMax b c).2
    · simp only [if_pos hfull, if_true]
    · simp only [if_neg hfull]
      exact ih _

theorem putInterval_eq (p bcMax : Nat) (cell window : BitVec 16) (fuel : Nat) :
    ∀ (curr : BitVec 16) (c : Cells),
      putInterval p bcMax cell window fuel curr c =
        putCells p bcMax (fluxBits cell window fuel curr) c := by
  induction fuel with
  | zero => intro curr c; rfl
  | succ fuel ih =>
    intro curr c
    by_cases hlong : window < curr
    · simp only [putInterval, fluxBits, if_pos hlong, putCells, ih]
    · simp only [putInterval, fluxBits, if_neg hlong, putCells]
      by_cases hfull : (putCell p bcMax true c).2
      · rw [if_pos hfull]
        exact Prod.ext rfl hfull
      · rw [if_neg hfull]
        exact Prod.ext rfl (Bool.eq_false_of_not_eq_true hfull)

/-- The bitcells that one interval contributes to a buffer of `bcMax`. -/
def intervalCells (cell : BitVec 16) (bcMax : Nat) (curr : BitVec 16) : List Bool :=
  fluxBits cell (cell + (cell >>> 1)) (intervalFuel bcMax) curr

/-- The bitcells of a list of intervals. -/
def cellsOf (cell : BitVec 16) (bcMax : Nat) (l : List (BitVec 16)) : List Bool :=
  l.flatMap (intervalCells cell bcMax)

@[simp] theorem cellsOf_append (cell : BitVec 16) (bcMax : Nat) (l₁ l₂ : List (BitVec 16)) :
    cellsOf cell bcMax (l₁ ++ l₂) = cellsOf cell bcMax l₁ ++ cellsOf cell bcMax l₂ :=
  List.flatMap_append

/-- **The loop of `rdata_flux_to_bc` pushes the bitcells of the intervals
outstanding in the ring**, and unless that fills the buffer leaves its index and
previous sample behind the last of them. -/
theorem fluxToBcLoop_eq (p bcMax : Nat) (cell : BitVec 16) (buf : Nat → BitVec 16) (k : Nat) :
    ∀ (prod cons prev : BitVec 16) (c fuel : Nat) (cs : Cells), k ≤ fuel → k < ringSize →
      cons.toNat = c % ringSize → prod.toNat = (c + k) % ringSize →
      let q := window buf ringSize c k
      let pc := putCells p bcMax (cellsOf cell bcMax (intervals prev q)) cs
      let r := fluxToBcLoop p bcMax cell (cell + (cell >>> 1)) buf prod fuel cons prev cs
      r.2.2 = pc ∧ (pc.2 = false → r.1.toNat = (c + k) % ringSize ∧ r.2.1 = q.getLastD prev) := by
  induction k with
  | zero =>
    intro prod cons prev c fuel cs _ _ hcons hprod
    have heq : cons = prod := BitVec.eq_of_toNat_eq (hcons.trans hprod.symm)
    cases fuel <;> simp [fluxToBcLoop, cellsOf, intervals, putCells, heq, hprod]
  | succ k ih =>
    intro prod cons prev c fuel cs hfuel hk hcons hprod
    obtain ⟨fuel, rfl⟩ : ∃ f, fuel = f + 1 := ⟨fuel - 1, by omega⟩
    have hne : cons ≠ prod := by
      intro h
      have := congrArg BitVec.toNat h
      simp only [ringSize] at *
      omega
    have hnext : ((cons + 1) &&& bufMask).toNat = (c + 1) % ringSize := by
      have h1 : (1 : BitVec 16).toNat = 1 := rfl
      rw [toNat_and_bufMask, BitVec.toNat_add, hcons, h1]
      simp only [ringSize]
      omega
    have hsplit : cellsOf cell bcMax (intervals prev (window buf ringSize c (k + 1))) =
        intervalCells cell bcMax (buf (c % ringSize) - prev) ++ cellsOf cell bcMax
            (intervals (buf (c % ringSize)) (window buf ringSize (c + 1) k)) := by
      simp only [window_succ, intervals, cellsOf, List.flatMap_cons]
    have hslot : buf cons.toNat = buf (c % ringSize) := by rw [hcons]
    obtain ⟨first, hfirst⟩ : ∃ first,
        putCells p bcMax (intervalCells cell bcMax (buf (c % ringSize) - prev)) cs = first :=
      ⟨_, rfl⟩
    have hput : putInterval p bcMax cell (cell + (cell >>> 1)) (intervalFuel bcMax)
        (buf (c % ringSize) - prev) cs = first := (putInterval_eq ..).trans hfirst
    intro q pc r
    have hpc : pc = if first.2 then first else putCells p bcMax (cellsOf cell bcMax
        (intervals (buf (c % ringSize)) (window buf ringSize (c + 1) k))) first.1 := by
      rw [← hfirst, ← putCells_append, ← hsplit]
    have hr : r = if first.2 then (cons, buf (c % ringSize), first.1, true)
        else fluxToBcLoop p bcMax cell (cell + (cell >>> 1)) buf prod fuel
          ((cons + 1) &&& bufMask) (buf (c % ringSize)) first.1 := by
      rw [← hput, ← hslot]
      exact if_neg hne
    rw [hpc, hr]
    by_cases hfull : first.2
    · rw [if_pos hfull, if_pos hfull]
      exact ⟨Prod.ext rfl hfull.symm, fun h => absurd h (by simp [hfull])⟩
    · rw [if_neg hfull, if_neg hfull]
      obtain ⟨h₁, h₂⟩ := ih prod _ (buf (c % ringSize)) (c + 1) fuel first.1 (by omega) (by omega)
        hnext (by rw [hprod]; congr 1; omega)
      refine ⟨h₁, fun h => ?_⟩
      obtain ⟨h₃, h₄⟩ := h₂ h
      refine ⟨h₃.trans (by congr 1; omega), h₄.trans ?_⟩
      simp only [q, window_succ, List.getLastD_cons]

/-- A poll of `rdata_flux_to_bc` leaves the inputs of the read and the engine's
side of the ring alone. -/
theorem rdataFluxToBc_frame (ticksPerCell : BitVec 32) (m : Mem) (rx : Rx) :
    let r := (rdataFluxToBc ticksPerCell m rx).2.1
    r.buf = rx.buf ∧ r.cndtr = rx.cndtr ∧ r.rd.p = rx.rd.p ∧ r.rd.nrWords = rx.rd.nrWords ∧
      r.rd.sync = rx.rd.sync := by
  simp only [rdataFluxToBc]
  split <;> exact ⟨rfl, rfl, rfl, rfl, rfl⟩

/-- **A poll of `rdata_flux_to_bc` with `k` captures outstanding** pushes their
bitcells, and consumes them all unless that fills the buffer. -/
theorem rdataFluxToBc_spec (ticksPerCell : BitVec 32) (m : Mem) (rx : Rx) {c k : Nat}
    (hk : k < ringSize) (hcons : rx.cons.toNat = c % ringSize)
    (hprod : rx.cndtr.index.toNat = (c + k) % ringSize) :
    let q := window rx.buf ringSize c k
    let pc := putCells rx.rd.p (rx.rd.nrWords * 16)
      (cellsOf (ticksPerCell.setWidth 16) (rx.rd.nrWords * 16) (intervals rx.prevSample q))
      ⟨m, rx.rd.bcWindow, rx.rd.bcProd⟩
    let r := rdataFluxToBc ticksPerCell m rx
    r.1 = pc.1.m ∧ r.2.2 = pc.2 ∧
      (pc.2 = false → r.2.1.rd.bcWindow = pc.1.bcDat ∧ r.2.1.rd.bcProd = pc.1.bcProd ∧
        r.2.1.cons.toNat = (c + k) % ringSize ∧ r.2.1.prevSample = q.getLastD rx.prevSample) ∧
      (pc.2 = true → r.2.1 = rx) := by
  obtain ⟨h₁, h₂⟩ := fluxToBcLoop_eq rx.rd.p (rx.rd.nrWords * 16) (ticksPerCell.setWidth 16)
    rx.buf k rx.cndtr.index rx.cons rx.prevSample c ringSize
    ⟨m, rx.rd.bcWindow, rx.rd.bcProd⟩ (by omega) hk hcons hprod
  simp only [rdataFluxToBc]
  generalize fluxToBcLoop rx.rd.p (rx.rd.nrWords * 16) (ticksPerCell.setWidth 16)
    (ticksPerCell.setWidth 16 + (ticksPerCell.setWidth 16 >>> 1)) rx.buf rx.cndtr.index ringSize
    rx.cons rx.prevSample ⟨m, rx.rd.bcWindow, rx.rd.bcProd⟩ = r at h₁ h₂ ⊢
  rw [← h₁] at h₂ ⊢
  cases hfull : r.2.2.2 with
  | false =>
    obtain ⟨h₃, h₄⟩ := h₂ hfull
    simp only [Bool.false_eq_true, if_false]
    exact ⟨trivial, trivial, fun _ => ⟨trivial, trivial, h₃, h₄⟩, fun h => h.elim⟩
  | true =>
    simp only [if_true]
    exact ⟨trivial, trivial, fun h => absurd h.symm Bool.false_ne_true, fun _ => trivial⟩

/-! ## What is in the output buffer -/

/-- The bitcells `l` have been pushed, fewer than fill the buffer: every complete
group of 32 is stored, and nothing outside the buffer differs from `m₀`. -/
structure Cells.Holds (m₀ : Mem) (p bcMax : Nat) (l : List Bool) (c : Cells) : Prop where
  prod_eq : c.bcProd = l.length
  register : ∃ y, c.bcDat = pushBits y l
  stored : c.m.bits p (4 * (l.length / 32)) = l.take (32 * (l.length / 32))
  frame : ∀ a, a < p ∨ p + bcMax / 8 ≤ a → c.m a = m₀ a

/-- The buffer is full of the first bitcells of `l`. -/
structure Filled (m₀ : Mem) (p bcMax : Nat) (l : List Bool) (m : Mem) : Prop where
  enough : bcMax ≤ l.length
  stored : m.bits p (bcMax / 8) = l.take bcMax
  frame : ∀ a, a < p ∨ p + bcMax / 8 ≤ a → m a = m₀ a

/-- More bitcells than fit change nothing. -/
theorem Filled.append {m₀ m : Mem} {p bcMax : Nat} {l : List Bool} (h : Filled m₀ p bcMax l m)
    (l' : List Bool) : Filled m₀ p bcMax (l ++ l') m where
  enough := by
    have := h.enough
    rw [List.length_append]
    omega
  stored := by rw [h.stored, List.take_append_of_le_length h.enough]
  frame := h.frame

section PutCell

variable {m₀ : Mem} {p bcMax : Nat} {l : List Bool} {c : Cells}

/-- One bitcell more: the buffer takes it, and is full exactly if it was the last
of `bcMax`. -/
theorem Cells.Holds.putCell (h : c.Holds m₀ p bcMax l) (hmax : bcMax % 32 = 0)
    (hlt : l.length < bcMax) (b : Bool) :
    (l.length + 1 < bcMax → (putCell p bcMax b c).2 = false ∧
        (putCell p bcMax b c).1.Holds m₀ p bcMax (l ++ [b])) ∧
      (l.length + 1 = bcMax → (putCell p bcMax b c).2 = true ∧
        Filled m₀ p bcMax (l ++ [b]) (putCell p bcMax b c).1.m) := by
  obtain ⟨y, hy⟩ := h.register
  have hprod := h.prod_eq
  have hreg : (if b then (c.bcDat <<< 1) ||| 1 else c.bcDat <<< 1) = pushBits y (l ++ [b]) := by
    rw [pushBits_append, ← hy, pushBits_cons, pushBits_nil]
    cases b
    · exact shiftLeft_one_eq _
    · exact shiftLeft_one_or_one_eq _
  have hlen : (l ++ [b]).length = l.length + 1 := by simp
  simp only [Floppy.putCell, hreg, hprod]
  by_cases hword : (l.length + 1) % 32 = 0
  · -- the bitcell completes a word, which is stored behind the words already there
    have haddr : p + 4 * ((l.length + 1 - 1) / 32) = p + 4 * (l.length / 32) := by simp
    have hbits : (c.m.st32 (p + 4 * (l.length / 32))
        (htobe32 (pushBits y (l ++ [b])))).bits p (4 * ((l.length + 1) / 32)) = l ++ [b] := by
      have hsize : 4 * ((l.length + 1) / 32) = 4 * (l.length / 32) + 4 := by omega
      have hkeep : (c.m.st32 (p + 4 * (l.length / 32))
          (htobe32 (pushBits y (l ++ [b])))).bits p (4 * (l.length / 32)) =
            c.m.bits p (4 * (l.length / 32)) :=
        Mem.bits_congr fun i _ hi => Mem.st32_of_lt _ _ hi
      have htake : (l ++ [b]).take (32 * (l.length / 32)) = l.take (32 * (l.length / 32)) :=
        List.take_append_of_le_length (by omega)
      rw [hsize, Mem.bits_add, hkeep, h.stored, Mem.bits_st32_htobe32,
        bitsOf_pushBits _ _ (by rw [hlen]; omega), hlen,
        show l.length + 1 - 32 = 32 * (l.length / 32) by omega,
        ← htake, List.take_append_drop]
    have hframe : ∀ a, a < p ∨ p + bcMax / 8 ≤ a →
        c.m.st32 (p + 4 * (l.length / 32)) (htobe32 (pushBits y (l ++ [b]))) a = m₀ a := by
      intro a ha
      rw [← h.frame a ha]
      rcases ha with ha | ha
      · exact Mem.st32_of_lt _ _ (by omega)
      · exact Mem.st32_of_le _ _ (by omega)
    simp only [if_pos hword, haddr]
    refine ⟨fun hless => ⟨by simp; omega, ?_⟩, fun hlast => ⟨by simp [hlast], ?_⟩⟩
    · refine ⟨hlen.symm, ⟨y, rfl⟩, ?_, hframe⟩
      rw [hlen, hbits, List.take_of_length_le (by rw [hlen]; omega)]
    · refine ⟨by omega, ?_, hframe⟩
      rw [show bcMax / 8 = 4 * ((l.length + 1) / 32) by omega, hbits,
        List.take_of_length_le (by omega)]
  · have hdiv : (l.length + 1) / 32 = l.length / 32 := by omega
    simp only [if_neg hword]
    refine ⟨fun _ => ⟨trivial, hlen.symm, ⟨y, rfl⟩, ?_, h.frame⟩, fun hlast => by omega⟩
    rw [hlen, hdiv, h.stored, List.take_append_of_le_length (by omega)]

/-- **The buffer takes bitcells until it holds exactly `bcMax` of them.** -/
theorem Cells.Holds.putCells (hmax : bcMax % 32 = 0) (l' : List Bool) :
    ∀ (l : List Bool) (c : Cells), c.Holds m₀ p bcMax l → l.length < bcMax →
      (l.length + l'.length < bcMax → (putCells p bcMax l' c).2 = false ∧
          (putCells p bcMax l' c).1.Holds m₀ p bcMax (l ++ l')) ∧
        (bcMax ≤ l.length + l'.length → (putCells p bcMax l' c).2 = true ∧
          Filled m₀ p bcMax (l ++ l') (putCells p bcMax l' c).1.m) := by
  induction l' with
  | nil =>
    intro l c h hlt
    refine ⟨fun _ => ⟨rfl, by simpa [Floppy.putCells] using h⟩, fun hge => ?_⟩
    simp at hge
    omega
  | cons b l' ih =>
    intro l c h hlt
    obtain ⟨hmore, hlast⟩ := h.putCell hmax hlt b
    have hassoc : l ++ b :: l' = (l ++ [b]) ++ l' := by simp
    simp only [List.length_cons, Floppy.putCells, hassoc]
    by_cases heq : l.length + 1 = bcMax
    · obtain ⟨hfull, hfilled⟩ := hlast heq
      refine ⟨fun hless => by omega, fun _ => ?_⟩
      simp only [hfull, if_true]
      exact ⟨trivial, hfilled.append l'⟩
    · obtain ⟨hfull, hholds⟩ := hmore (by omega)
      have hrec := ih (l ++ [b]) _ hholds (by simp; omega)
      simp only [List.length_append, List.length_singleton] at hrec
      simp only [hfull, Bool.false_eq_true, if_false]
      refine ⟨fun hless => hrec.1 (by omega), fun hge => hrec.2 (by omega)⟩

end PutCell

end FlashFloppyTestbed.Floppy
