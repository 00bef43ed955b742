/-
  Floppy/Polling.lean --- `floppy_read` of `src/floppy_generic.c` against a DMA
  engine that captures on its own.

  `floppy_read` polls `rdata_wait_sync` until it returns `TRUE` and then
  `rdata_flux_to_bc` until that does.  Between two polls the engine may capture
  any number of timer values, as long as fewer than 1024 are outstanding.

  What a read delivers is defined without polls, as a function of the captured
  values alone: `readCells` is the stream of bitcells counted from the sync mark,
  and the invariant `RdRun.Inv` says that every poll leaves the output buffer
  with the bitcells of the values consumed so far.  How the captures are split
  between polls therefore does not show in the result.
-/
import FlashFloppyTestbed.Floppy.Rdata
import FlashFloppyTestbed.Foundation.Run

set_option autoImplicit false

namespace FlashFloppyTestbed.Floppy

open FlashFloppyTestbed.Foundation

/-- Which loop of `floppy_read` is running. -/
inductive ReadPhase where
  /-- `while (!rdata_wait_sync(rd))` -/
  | waiting
  /-- `while (!rdata_flux_to_bc(rd))` -/
  | reading
  | done
  deriving DecidableEq, Repr

/-- A running `floppy_read` with its history: the values captured so far and the
number of them that the polls have consumed. -/
structure RdRun where
  m : Mem
  rx : Rx
  phase : ReadPhase
  arrived : List (BitVec 16)
  taken : Nat

namespace RdRun

/-- `floppy_read(rd)` starts at time `now`. -/
def enter (m : Mem) (rx : Rx) (now : BitVec 32) : RdRun where
  m := m
  rx := { rx with rd := { rx.rd with start := now } }
  phase := if rx.rd.sync ≠ .none then .waiting else .reading
  arrived := []
  taken := 0

/-- The captured values that no poll has consumed. -/
def outstanding (s : RdRun) : Nat := s.arrived.length - s.taken

/-- The DMA engine stores a captured timer value. -/
def capture (s : RdRun) (v : BitVec 16) : RdRun :=
  { s with
    rx := { s.rx with
      buf := Function.update s.rx.buf s.rx.cndtr.index.toNat v
      cndtr := s.rx.cndtr.next }
    arrived := s.arrived ++ [v] }

/-- One iteration of the loop that is running, at time `now`. -/
def poll (ticksPerCell now : BitVec 32) (s : RdRun) : RdRun :=
  match s.phase with
  | .waiting =>
      let (m, rx, locked) := rdataWaitSync ticksPerCell now s.m s.rx
      { s with
        m := m
        rx := rx
        phase := if locked then .reading else .waiting
        taken := s.taken + ((rx.cons - s.rx.cons) &&& bufMask).toNat }
  | .reading =>
      let (m, rx, full) := rdataFluxToBc ticksPerCell s.m s.rx
      if full then
        { s with m := m, rx := { rx with rd := { rx.rd with endTime := now } }, phase := .done }
      else
        { s with
          m := m
          rx := rx
          taken := s.taken + ((rx.cons - s.rx.cons) &&& bufMask).toNat }
  | .done => s

end RdRun

/-- One step of a read: a captured value, with fewer than 1024 outstanding
behind it, or a poll. -/
inductive RdStep (ticksPerCell : BitVec 32) : RdRun → RdRun → Prop where
  | capture (s : RdRun) (v : BitVec 16) : s.outstanding + 1 < ringSize →
      RdStep ticksPerCell s (s.capture v)
  | poll (s : RdRun) (now : BitVec 32) : RdStep ticksPerCell s (s.poll ticksPerCell now)

/-! ## What a read delivers -/

/-- The bitcells counted from the sync mark, as far as the given flux intervals
show them; `none` before the mark. -/
def readCells (sync : Sync) (cell : BitVec 16) (bcMax : Nat) (l : List (BitVec 16)) :
    Option (List Bool) :=
  if sync = .none then some (cellsOf cell bcMax l)
  else
    let sc := sync.scan cell (~~~0) l
    if sc.found then
      some ((bitsOf sc.window).drop (32 - sync.found sc.window) ++ cellsOf cell bcMax sc.rest)
    else none

/-- Further intervals append their bitcells. -/
theorem readCells_append {sync : Sync} {cell : BitVec 16} {bcMax : Nat} {l₁ : List (BitVec 16)}
    {cs : List Bool} (h : readCells sync cell bcMax l₁ = some cs) (l₂ : List (BitVec 16)) :
    readCells sync cell bcMax (l₁ ++ l₂) = some (cs ++ cellsOf cell bcMax l₂) := by
  unfold readCells at h ⊢
  by_cases hnone : sync = .none
  · rw [if_pos hnone] at h ⊢
    cases h
    rw [cellsOf_append]
  · rw [if_neg hnone] at h ⊢
    simp only [Sync.scan_append] at h ⊢
    cases hfound : (sync.scan cell (~~~0) l₁).found with
    | false => simp only [hfound, Bool.false_eq_true, if_false, reduceCtorEq] at h
    | true =>
      simp only [hfound, if_true] at h ⊢
      cases h
      rw [cellsOf_append, List.append_assoc]

/-! ## The captures outstanding -/

/-- The captured values not yet consumed sit in the ring, oldest at `dma_r.cons`. -/
structure RdRun.Ring (cnt : BitVec 16) (s : RdRun) : Prop where
  taken_le : s.taken ≤ s.arrived.length
  outstanding_lt : s.outstanding < ringSize
  cons_eq : s.rx.cons.toNat = s.taken % ringSize
  index_eq : s.rx.cndtr.index.toNat = s.arrived.length % ringSize
  window_eq : window s.rx.buf ringSize s.taken s.outstanding = s.arrived.drop s.taken
  prev_eq : s.rx.prevSample = (s.arrived.take s.taken).getLastD cnt

namespace RdRun.Ring

variable {cnt : BitVec 16} {s t : RdRun}

theorem enter {rd : Read} {rx : Rx} {buf : Nat → BitVec 16} (m : Mem) (now : BitVec 32)
    (hprep : floppyReadPrep rd cnt buf = some rx) : (RdRun.enter m rx now).Ring cnt := by
  unfold floppyReadPrep at hprep
  split at hprep
  · cases hprep
    exact
      { taken_le := Nat.le_refl _
        outstanding_lt := by simp [RdRun.enter, outstanding, ringSize]
        cons_eq := by simp [RdRun.enter]
        index_eq := by simp [RdRun.enter]
        window_eq := rfl
        prev_eq := rfl }
  · cases hprep

theorem capture (h : s.Ring cnt) (v : BitVec 16) (hroom : s.outstanding + 1 < ringSize) :
    (s.capture v).Ring cnt := by
  have htaken := h.taken_le
  have hout : (s.capture v).outstanding = s.outstanding + 1 := by
    simp only [RdRun.capture, outstanding, List.length_append, List.length_singleton]
    omega
  have hslot : s.rx.cndtr.index.toNat = (s.taken + s.outstanding) % ringSize := by
    rw [h.index_eq, outstanding, Nat.add_sub_cancel' htaken]
  refine
    { taken_le := ?_, outstanding_lt := by omega, cons_eq := h.cons_eq, index_eq := ?_
      window_eq := ?_, prev_eq := ?_ }
  · simp only [RdRun.capture, List.length_append]
    omega
  · simp only [RdRun.capture, Cndtr.index_next, h.index_eq, List.length_append,
      List.length_singleton]
    simp only [ringSize]
    omega
  · rw [hout]
    simp only [RdRun.capture, hslot]
    rw [window_update _ v (by omega), h.window_eq, List.drop_append_of_le_length htaken]
  · simp only [RdRun.capture]
    rw [List.take_append_of_le_length htaken]
    exact h.prev_eq

/-- The distance between two ring indices, less than a revolution apart. -/
theorem slots_eq {c c' : BitVec 16} {i n : Nat} (hc : c.toNat = i % ringSize)
    (hc' : c'.toNat = (i + n) % ringSize) (hn : n < ringSize) :
    ((c' - c) &&& bufMask).toNat = n := by
  rw [toNat_and_bufMask, BitVec.toNat_sub]
  simp only [ringSize] at *
  omega

/-- A poll that reads the `n` oldest entries consumes them. -/
theorem consume (h : s.Ring cnt) {n : Nat} (hn : n ≤ s.outstanding)
    (harrived : t.arrived = s.arrived) (htaken : t.taken = s.taken + n)
    (hbuf : t.rx.buf = s.rx.buf) (hcndtr : t.rx.cndtr = s.rx.cndtr)
    (hcons : t.rx.cons.toNat = (s.taken + n) % ringSize)
    (hprev : t.rx.prevSample = ((s.arrived.drop s.taken).take n).getLastD s.rx.prevSample) :
    t.Ring cnt := by
  have hle := h.taken_le
  have hlt := h.outstanding_lt
  have hout : t.outstanding = s.outstanding - n := by
    simp only [outstanding, harrived, htaken]
    omega
  have hn' : s.taken + n ≤ s.arrived.length := by
    simp only [outstanding] at hn
    omega
  refine
    { taken_le := by rw [htaken, harrived]; exact hn', outstanding_lt := by omega
      cons_eq := by rw [htaken]; exact hcons
      index_eq := by rw [hcndtr, harrived]; exact h.index_eq
      window_eq := ?_, prev_eq := ?_ }
  · have hsplit := window_add s.rx.buf ringSize s.taken n (s.outstanding - n)
    rw [Nat.add_sub_cancel' hn, h.window_eq] at hsplit
    rw [hbuf, htaken, hout, harrived, ← List.drop_drop, hsplit, List.drop_left' (by simp)]
  · rw [hprev, harrived, htaken, List.take_add, h.prev_eq]
    simp only [List.getLastD_eq_getLast?, List.getLast?_append]
    cases ((s.arrived.drop s.taken).take n).getLast? <;> simp

end RdRun.Ring

/-! ## The invariant -/

/-- What the polls have done, on the flux intervals `l` of the captures consumed. -/
def RdRun.Progress (m₀ : Mem) (cell : BitVec 16) (rd : Read) (l : List (BitVec 16)) (s : RdRun) :
    Prop :=
  match s.phase with
  | .waiting => rd.sync ≠ .none ∧ s.m = m₀ ∧ (rd.sync.scan cell (~~~0) l).found = false ∧
      s.rx.rd.bcWindow = (rd.sync.scan cell (~~~0) l).window
  | .reading => ∃ cs, readCells rd.sync cell (rd.nrWords * 16) l = some cs ∧
      cs.length < rd.nrWords * 16 ∧
      Cells.Holds m₀ rd.p (rd.nrWords * 16) cs ⟨s.m, s.rx.rd.bcWindow, s.rx.rd.bcProd⟩
  | .done => True

/-- What holds of every running read. -/
structure RdRun.Inv (m₀ : Mem) (cell : BitVec 16) (rd : Read) (cnt : BitVec 16) (s : RdRun) :
    Prop where
  p_eq : s.rx.rd.p = rd.p
  nrWords_eq : s.rx.rd.nrWords = rd.nrWords
  sync_eq : s.rx.rd.sync = rd.sync
  ring : s.Ring cnt
  progress : s.Progress m₀ cell rd (intervals cnt (s.arrived.take s.taken))
  done : s.phase = .done → ∃ cs,
    readCells rd.sync cell (rd.nrWords * 16) (intervals cnt s.arrived) = some cs ∧
      Filled m₀ rd.p (rd.nrWords * 16) cs s.m

theorem intervals_take (l : List (BitVec 16)) : ∀ (prev : BitVec 16) (n : Nat),
    intervals prev (l.take n) = (intervals prev l).take n := by
  induction l with
  | nil => intro prev n; simp [intervals]
  | cons next l ih =>
    intro prev n
    cases n with
    | zero => rfl
    | succ n => rw [List.take_succ_cons, intervals, intervals, List.take_succ_cons, ih]

/-- A scan, repeated on what it has read, ends the same way with nothing left. -/
theorem Sync.scan_take (sync : Sync) (cell : BitVec 16) (l : List (BitVec 16)) : ∀ w,
    sync.scan cell w (l.take (l.length - (sync.scan cell w l).rest.length)) =
      { sync.scan cell w l with rest := [] } := by
  induction l with
  | nil => intro w; rfl
  | cons curr l ih =>
    intro w
    have hle := (sync.scan_rest_suffix cell l ((w <<< waitNr cell curr) ||| 1)).length_le
    by_cases hfound : sync.found ((w <<< waitNr cell curr) ||| 1) ≠ 0
    · simp only [Sync.scan, if_pos hfound, List.length_cons]
      rw [show l.length + 1 - l.length = 0 + 1 by omega, List.take_succ_cons]
      simp only [Sync.scan, if_pos hfound, List.take_zero]
    · simp only [Sync.scan, if_neg hfound, List.length_cons]
      rw [Nat.sub_add_comm hle, List.take_succ_cons]
      simp only [Sync.scan, if_neg hfound]
      exact ih _

/-- The sync marks that `sync_found` can report. -/
theorem Sync.found_eq (sync : Sync) (w : BitVec 32) (h : sync.found w ≠ 0) :
    sync.found w = 31 ∨ sync.found w = 32 := by
  unfold Sync.found at h ⊢
  split at h <;> split at h <;> simp_all

/-- The register at the sync mark, and its stored copy, hold the mark's bitcells. -/
theorem Cells.Holds.sync (m₀ : Mem) (p bcMax n : Nat) (w : BitVec 32) (hn : n = 31 ∨ n = 32)
    (hmax : 64 ≤ bcMax) :
    Cells.Holds m₀ p bcMax ((bitsOf w).drop (32 - n)) ⟨m₀.st32 p (htobe32 w), w, n⟩ where
  prod_eq := by
    simp
    omega
  register :=
    ⟨pushBits 0 ((bitsOf w).take (32 - n)), by
      rw [← pushBits_append, List.take_append_drop, pushBits_bitsOf]⟩
  stored := by
    rcases hn with rfl | rfl
    · simp [Mem.bits, Mem.bytes]
    · rw [Nat.sub_self, List.drop_zero, length_bitsOf, List.take_of_length_le (by simp)]
      exact Mem.bits_st32_htobe32 m₀ p w
  frame := by
    intro a ha
    rcases ha with ha | ha
    · exact Mem.st32_of_lt _ _ ha
    · exact Mem.st32_of_le _ _ (by omega)

namespace RdRun.Inv

variable {m₀ : Mem} {ticksPerCell : BitVec 32} {rd : Read} {cnt : BitVec 16} {s t : RdRun}

theorem enter {rx : Rx} {buf : Nat → BitVec 16} (now : BitVec 32)
    (hprep : floppyReadPrep rd cnt buf = some rx) (hwords : 0 < rd.nrWords) :
    (RdRun.enter m₀ rx now).Inv m₀ (ticksPerCell.setWidth 16) rd cnt := by
  have hring := Ring.enter m₀ now hprep
  unfold floppyReadPrep at hprep
  split at hprep
  · cases hprep
    refine ⟨rfl, rfl, rfl, hring, ?_, fun hdone => ?_⟩
    · by_cases hsync : rd.sync = .none
      · simp only [RdRun.enter, Progress, hsync, ne_eq, not_true_eq_false, if_false]
        refine ⟨[], by simp [readCells, cellsOf, intervals], by simp; omega, rfl, ?_, rfl, ?_⟩
        · exact ⟨_, rfl⟩
        · exact fun _ _ => rfl
      · simp only [RdRun.enter, Progress, hsync, ne_eq, not_false_eq_true, if_true]
        exact ⟨trivial, trivial, rfl, rfl⟩
    · simp only [RdRun.enter] at hdone
      split at hdone <;> cases hdone
  · cases hprep

theorem capture (h : s.Inv m₀ (ticksPerCell.setWidth 16) rd cnt) (v : BitVec 16)
    (hroom : s.outstanding + 1 < ringSize) :
    (s.capture v).Inv m₀ (ticksPerCell.setWidth 16) rd cnt := by
  refine ⟨h.p_eq, h.nrWords_eq, h.sync_eq, h.ring.capture v hroom, ?_, fun hdone => ?_⟩
  · have htake : (s.capture v).arrived.take s.taken = s.arrived.take s.taken :=
      List.take_append_of_le_length h.ring.taken_le
    have hprogress := h.progress
    simp only [Progress] at hprogress ⊢
    rw [show (s.capture v).taken = s.taken from rfl, htake]
    exact hprogress
  · obtain ⟨cs, hcs, hfilled⟩ := h.done hdone
    have happend := readCells_append hcs (intervals (s.arrived.getLastD cnt) [v])
    rw [← intervals_append] at happend
    exact ⟨_, happend, hfilled.append _⟩

/-- The intervals of the captures consumed before and of the `n` consumed next. -/
theorem intervals_taken (h : s.Ring cnt) (n : Nat) :
    intervals cnt (s.arrived.take (s.taken + n)) =
      intervals cnt (s.arrived.take s.taken) ++
        (intervals s.rx.prevSample (s.arrived.drop s.taken)).take n := by
  rw [List.take_add, intervals_append, ← h.prev_eq, intervals_take (s.arrived.drop s.taken)]

/-- A poll of `rdata_wait_sync` consumes the captures up to the sync mark, or all. -/
theorem poll_waiting (h : s.Inv m₀ (ticksPerCell.setWidth 16) rd cnt) (hphase : s.phase = .waiting)
    (now : BitVec 32) (hwords : 4 ≤ rd.nrWords) :
    (s.poll ticksPerCell now).Inv m₀ (ticksPerCell.setWidth 16) rd cnt ∧
      ((s.poll ticksPerCell now).phase ≠ .reading → (s.poll ticksPerCell now).phase = .waiting ∧
        (s.poll ticksPerCell now).outstanding = 0) := by
  have hprogress := h.progress
  simp only [Progress, hphase] at hprogress
  obtain ⟨hsync, hm, hnot, hwindow⟩ := hprogress
  have hlt := h.ring.outstanding_lt
  have hle := h.ring.taken_le
  -- the poll scans the outstanding captures, from where the last poll stopped
  obtain ⟨hbuf, hcndtr, hp, hnr, hsy⟩ := rdataWaitSync_frame ticksPerCell now s.m s.rx
  obtain ⟨hlocked, hdat, hcons, hprev, hno, hyes⟩ := rdataWaitSync_spec ticksPerCell now s.m s.rx
    hlt h.ring.cons_eq (by rw [h.ring.index_eq, outstanding, Nat.add_sub_cancel' hle])
  rw [h.ring.window_eq, h.sync_eq, hwindow] at hlocked hdat hcons hprev hno hyes
  have hscan := rd.sync.scan_take (ticksPerCell.setWidth 16)
    (intervals s.rx.prevSample (s.arrived.drop s.taken))
    (rd.sync.scan (ticksPerCell.setWidth 16) (~~~0) (intervals cnt (s.arrived.take s.taken))).window
  have hfound := rd.sync.scan_found (ticksPerCell.setWidth 16)
    (intervals s.rx.prevSample (s.arrived.drop s.taken))
    (rd.sync.scan (ticksPerCell.setWidth 16) (~~~0) (intervals cnt (s.arrived.take s.taken))).window
  have hlen : (intervals s.rx.prevSample (s.arrived.drop s.taken)).length = s.outstanding := by
    simp [outstanding]
  have hnone := rd.sync.scan_rest_of_not_found (ticksPerCell.setWidth 16)
    (intervals s.rx.prevSample (s.arrived.drop s.taken))
    (rd.sync.scan (ticksPerCell.setWidth 16) (~~~0) (intervals cnt (s.arrived.take s.taken))).window
  rw [hlen] at hscan
  generalize rd.sync.scan (ticksPerCell.setWidth 16)
    (rd.sync.scan (ticksPerCell.setWidth 16) (~~~0) (intervals cnt (s.arrived.take s.taken))).window
    (intervals s.rx.prevSample (s.arrived.drop s.taken)) = sc at *
  generalize hn : s.outstanding - sc.rest.length = n at *
  have hslots := Ring.slots_eq h.ring.cons_eq hcons (by omega)
  have htotal : rd.sync.scan (ticksPerCell.setWidth 16) (~~~0)
      (intervals cnt (s.arrived.take (s.taken + n))) = { sc with rest := [] } := by
    rw [intervals_taken h.ring, Sync.scan_append, if_neg (by rw [hnot]; exact Bool.false_ne_true),
      hscan]
  simp only [RdRun.poll, hphase]
  refine ⟨⟨hp.trans h.p_eq, hnr.trans h.nrWords_eq, hsy.trans h.sync_eq, ?_, ?_, ?_⟩, ?_⟩
  · exact h.ring.consume (by omega) rfl (by simp only [hslots]) hbuf hcndtr hcons hprev
  · simp only [Progress, hslots, hlocked]
    cases hfd : sc.found with
    | false =>
      simp only [Bool.false_eq_true, if_false]
      refine ⟨hsync, (hno hfd).trans hm, ?_, ?_⟩
      · rw [htotal, hfd]
      · rw [htotal, hdat]
    | true =>
      obtain ⟨hmem, hprod⟩ := hyes hfd
      simp only [if_true, hmem, hprod, hdat, h.p_eq]
      rw [hm]
      have hmark := rd.sync.found_eq sc.window (hfound hfd)
      refine ⟨(bitsOf sc.window).drop (32 - rd.sync.found sc.window), ?_, ?_, ?_⟩
      · rw [readCells, if_neg hsync, htotal, hfd]
        simp [cellsOf]
      · simp
        omega
      · exact Cells.Holds.sync m₀ rd.p _ _ sc.window hmark (by omega)
  · intro hdone
    simp only at hdone
    split at hdone <;> cases hdone
  · intro hnr
    cases hfd : sc.found with
    | false =>
      have hrest := hnone hfd
      simp only [outstanding, hslots, hlocked, hfd, Bool.false_eq_true, if_false] at hn ⊢
      rw [hrest] at hn
      exact ⟨trivial, by simp only [List.length_nil] at hn; omega⟩
    | true => exact absurd (by simp only [hlocked, hfd, if_true]) hnr

/-- A poll of `rdata_flux_to_bc` consumes every outstanding capture, or finishes. -/
theorem poll_reading (h : s.Inv m₀ (ticksPerCell.setWidth 16) rd cnt) (hphase : s.phase = .reading)
    (now : BitVec 32) (heven : rd.nrWords % 2 = 0) :
    (s.poll ticksPerCell now).Inv m₀ (ticksPerCell.setWidth 16) rd cnt ∧
      ((s.poll ticksPerCell now).phase ≠ .done → (s.poll ticksPerCell now).outstanding = 0) := by
  have hprogress := h.progress
  simp only [Progress, hphase] at hprogress
  obtain ⟨cs, hcs, hroom, hholds⟩ := hprogress
  have hlt := h.ring.outstanding_lt
  have hle := h.ring.taken_le
  obtain ⟨hbuf, hcndtr, hp, hnr, hsy⟩ := rdataFluxToBc_frame ticksPerCell s.m s.rx
  obtain ⟨hm, hfull, hmore, hlast⟩ := rdataFluxToBc_spec ticksPerCell s.m s.rx hlt
    h.ring.cons_eq (by rw [h.ring.index_eq, outstanding, Nat.add_sub_cancel' hle])
  rw [h.ring.window_eq, h.p_eq, h.nrWords_eq] at hm hfull hmore hlast
  -- the poll pushes the bitcells of the outstanding captures
  obtain ⟨hless, hge⟩ := hholds.putCells (by omega)
    (cellsOf (ticksPerCell.setWidth 16) (rd.nrWords * 16)
      (intervals s.rx.prevSample (s.arrived.drop s.taken))) _ _ hroom
  have hall : intervals cnt s.arrived = intervals cnt (s.arrived.take s.taken) ++
      intervals s.rx.prevSample (s.arrived.drop s.taken) := by
    rw [h.ring.prev_eq, ← intervals_append, List.take_append_drop]
  have hcells := readCells_append hcs (intervals s.rx.prevSample (s.arrived.drop s.taken))
  rw [← hall] at hcells
  generalize cellsOf (ticksPerCell.setWidth 16) (rd.nrWords * 16)
    (intervals s.rx.prevSample (s.arrived.drop s.taken)) = new at *
  generalize Floppy.putCells rd.p (rd.nrWords * 16) new ⟨s.m, s.rx.rd.bcWindow, s.rx.rd.bcProd⟩ = pc
    at *
  simp only [RdRun.poll, hphase]
  by_cases hbits : cs.length + new.length < rd.nrWords * 16
  · obtain ⟨hpc, hnext⟩ := hless hbits
    obtain ⟨hdat, hprod, hcons, hprev⟩ := hmore hpc
    have hslots := Ring.slots_eq h.ring.cons_eq hcons hlt
    have htaken : s.taken + s.outstanding = s.arrived.length := by
      rw [outstanding, Nat.add_sub_cancel' hle]
    simp only [hfull, hpc, Bool.false_eq_true, if_false]
    refine ⟨⟨hp.trans h.p_eq, hnr.trans h.nrWords_eq, hsy.trans h.sync_eq, ?_, ?_, ?_⟩, ?_⟩
    · refine h.ring.consume (Nat.le_refl _) rfl (by simp only [hslots]) hbuf hcndtr hcons ?_
      rw [hprev, List.take_of_length_le (by simp [outstanding])]
    · simp only [Progress, hslots, htaken, List.take_length, hm, hdat, hprod]
      exact ⟨_, hcells, by rw [List.length_append]; exact hbits, hnext⟩
    · intro hdone
      cases hdone
    · intro _
      simp only [outstanding, hslots]
      omega
  · obtain ⟨hpc, hfilled⟩ := hge (by omega)
    simp only [hfull, hpc, if_true]
    rw [hlast hpc]
    refine ⟨⟨h.p_eq, h.nrWords_eq, h.sync_eq, ?_, trivial, fun _ => ?_⟩, fun hne => absurd rfl hne⟩
    · exact ⟨h.ring.taken_le, h.ring.outstanding_lt, h.ring.cons_eq, h.ring.index_eq,
        h.ring.window_eq, h.ring.prev_eq⟩
    · rw [hm]
      exact ⟨_, hcells, hfilled⟩

/-- Every step of a read keeps the invariant. -/
theorem step (hstep : RdStep ticksPerCell s t) (hwords : 4 ≤ rd.nrWords)
    (heven : rd.nrWords % 2 = 0) (h : s.Inv m₀ (ticksPerCell.setWidth 16) rd cnt) :
    t.Inv m₀ (ticksPerCell.setWidth 16) rd cnt := by
  cases hstep with
  | capture v hroom => exact h.capture v hroom
  | poll now =>
    cases hphase : s.phase with
    | waiting => exact (h.poll_waiting hphase now hwords).1
    | reading => exact (h.poll_reading hphase now heven).1
    | done =>
      have hidle : s.poll ticksPerCell now = s := by simp only [RdRun.poll, hphase]
      rw [hidle]
      exact h

/-- Every run of a read keeps the invariant. -/
theorem of_run {rx : Rx} {buf : Nat → BitVec 16} {now : BitVec 32} (hwords : 4 ≤ rd.nrWords)
    (hprep : floppyReadPrep rd cnt buf = some rx)
    (hrun : Relation.ReflTransGen (RdStep ticksPerCell) (RdRun.enter m₀ rx now) s) :
    s.Inv m₀ (ticksPerCell.setWidth 16) rd cnt := by
  have heven : rd.nrWords % 2 = 0 := by
    unfold floppyReadPrep at hprep
    split at hprep
    · rename_i hassert
      exact hassert.2
    · cases hprep
  exact run_invariant (fun _ _ hstep h => h.step hstep hwords heven) hrun
    (enter now hprep (by omega))

end RdRun.Inv

/-! ## The result does not depend on the polls -/

theorem RdRun.poll_arrived (ticksPerCell now : BitVec 32) (s : RdRun) :
    (s.poll ticksPerCell now).arrived = s.arrived := by
  unfold RdRun.poll
  split
  · rfl
  · dsimp only
    split <;> rfl
  · rfl

section Converge

variable {m₀ : Mem} {ticksPerCell : BitVec 32} {rd : Read} {cnt : BitVec 16} {s : RdRun}
  {cs : List Bool}

/-- With the sync mark among the captures, a poll finds it. -/
theorem RdRun.Inv.poll_locks (h : s.Inv m₀ (ticksPerCell.setWidth 16) rd cnt)
    (hphase : s.phase = .waiting) (now : BitVec 32) (hwords : 4 ≤ rd.nrWords)
    (hcs : readCells rd.sync (ticksPerCell.setWidth 16) (rd.nrWords * 16)
      (intervals cnt s.arrived) = some cs) : (s.poll ticksPerCell now).phase = .reading := by
  obtain ⟨hinv, hall⟩ := h.poll_waiting hphase now hwords
  by_contra hne
  obtain ⟨hwait, hout⟩ := hall hne
  have hprogress := hinv.progress
  have hlen : s.arrived.length ≤ (s.poll ticksPerCell now).taken := by
    rw [RdRun.outstanding, RdRun.poll_arrived] at hout
    omega
  simp only [RdRun.Progress, hwait, RdRun.poll_arrived, List.take_of_length_le hlen] at hprogress
  obtain ⟨hsync, -, hnot, -⟩ := hprogress
  rw [readCells, if_neg hsync] at hcs
  simp only [hnot, Bool.false_eq_true, if_false, reduceCtorEq] at hcs

/-- With enough bitcells among the captures, a poll of the second loop finishes. -/
theorem RdRun.Inv.poll_finishes (h : s.Inv m₀ (ticksPerCell.setWidth 16) rd cnt)
    (hphase : s.phase = .reading) (now : BitVec 32) (heven : rd.nrWords % 2 = 0)
    (hcs : readCells rd.sync (ticksPerCell.setWidth 16) (rd.nrWords * 16)
      (intervals cnt s.arrived) = some cs) (henough : rd.nrWords * 16 ≤ cs.length) :
    (s.poll ticksPerCell now).phase = .done := by
  obtain ⟨hinv, hall⟩ := h.poll_reading hphase now heven
  by_contra hne
  have hout := hall hne
  have hread : (s.poll ticksPerCell now).phase = .reading := by
    revert hne
    simp only [RdRun.poll, hphase]
    split
    · exact fun hne => absurd rfl hne
    · exact fun _ => rfl
  have hprogress := hinv.progress
  have hlen : s.arrived.length ≤ (s.poll ticksPerCell now).taken := by
    rw [RdRun.outstanding, RdRun.poll_arrived] at hout
    omega
  simp only [RdRun.Progress, hread, RdRun.poll_arrived, List.take_of_length_le hlen] at hprogress
  obtain ⟨cs', hcs', hless, -⟩ := hprogress
  rw [hcs] at hcs'
  cases hcs'
  omega

/-- With enough bitcells among the captures, two polls finish from anywhere. -/
theorem RdRun.Inv.two_polls (h : s.Inv m₀ (ticksPerCell.setWidth 16) rd cnt)
    (now now' : BitVec 32) (hwords : 4 ≤ rd.nrWords) (heven : rd.nrWords % 2 = 0)
    (hcs : readCells rd.sync (ticksPerCell.setWidth 16) (rd.nrWords * 16)
      (intervals cnt s.arrived) = some cs) (henough : rd.nrWords * 16 ≤ cs.length) :
    ((s.poll ticksPerCell now).poll ticksPerCell now').phase = .done := by
  have hidle : ∀ {t : RdRun} (n : BitVec 32), t.phase = .done →
      (t.poll ticksPerCell n).phase = .done := by
    intro t n hdone
    simp only [RdRun.poll, hdone]
  cases hphase : s.phase with
  | waiting =>
    have hinv := (h.poll_waiting hphase now hwords).1
    refine hinv.poll_finishes (h.poll_locks hphase now hwords hcs) now' heven ?_ henough
    rw [RdRun.poll_arrived]
    exact hcs
  | reading => exact hidle now' (h.poll_finishes hphase now heven hcs henough)
  | done => exact hidle now' (hidle now hphase)

end Converge

/-- The memory of a full buffer is what its bitcells say. -/
theorem Filled.unique {m₀ m m' : Mem} {p bcMax : Nat} {l : List Bool}
    (h : Filled m₀ p bcMax l m) (h' : Filled m₀ p bcMax l m') : m = m' := by
  funext a
  by_cases ha : a < p ∨ p + bcMax / 8 ≤ a
  · rw [h.frame a ha, h'.frame a ha]
  · rw [not_or, Nat.not_lt, Nat.not_le] at ha
    exact Mem.eq_of_bits_eq (h.stored.trans h'.stored.symm) ha.1 ha.2

/-- A read never stores outside its buffer. -/
theorem RdRun.Inv.frame {m₀ : Mem} {cell : BitVec 16} {rd : Read} {cnt : BitVec 16} {s : RdRun}
    (h : s.Inv m₀ cell rd cnt) (a : Nat) (ha : a < rd.p ∨ rd.p + rd.nrWords * 16 / 8 ≤ a) :
    s.m a = m₀ a := by
  have hprogress := h.progress
  cases hphase : s.phase with
  | waiting =>
    simp only [Progress, hphase] at hprogress
    rw [hprogress.2.1]
  | reading =>
    simp only [Progress, hphase] at hprogress
    obtain ⟨cs, -, -, hholds⟩ := hprogress
    exact hholds.frame a ha
  | done =>
    obtain ⟨cs, -, hfilled⟩ := h.done hphase
    exact hfilled.frame a ha

end FlashFloppyTestbed.Floppy
