/-
  Floppy/FloppyWrite.lean --- `floppy_write` of `src/floppy_generic.c` against a
  DMA engine and an index sensor that run on their own.

  The function polls two things, the DMA counter and `index.count`, in two
  loops.  It is modelled as a program counter that stops before every read of a
  volatile location; between two such reads the DMA engine may transfer entries
  and index pulses may arrive.  The engine may not pass `dma_w.prod` while
  bitcells are left to convert, but it may run past it afterwards: the ring then
  holds stale entries, and `WrRun.Overrun` says how far.
-/
import FlashFloppyTestbed.Floppy.WriteRing

set_option autoImplicit false

namespace FlashFloppyTestbed.Floppy

open FlashFloppyTestbed.Foundation

/-- Where `floppy_write` stands. -/
inductive WritePc where
  /-- at the test `wr->bc_cons != bc_max` of the first loop -/
  | fill
  /-- at the test `index.count == stop_index` of the first loop -/
  | fillIndex
  /-- at the test `index.count == stop_index` of the drain loop -/
  | drainIndex
  /-- before the drain loop reads `dma_wdata.cndtr` -/
  | drainRing
  /-- behind the label `out` -/
  | exited
  deriving DecidableEq, Repr

/-- A running `floppy_write`, with the history that its environment is bound by. -/
structure FwRun where
  run : WrRun
  /-- `index.count` -/
  indexCount : BitVec 32
  /-- `stop_index` -/
  stopIndex : BitVec 32
  /-- `todo` -/
  todo : BitVec 16
  pc : WritePc
  /-- write gate asserted -/
  wgate : Bool
  /-- `tim_wdata->cr1 & TIM_CR1_CEN` -/
  timer : Bool
  /-- `dma_wdata.ccr & DMA_CCR_EN` -/
  dmaOn : Bool
  /-- index pulses since entry -/
  pulses : Nat
  /-- index pulses since `index.count` was last read -/
  pulsesSincePoll : Nat
  /-- entries transferred since `dma_wdata.cndtr` was last read -/
  readsSincePoll : Nat
  /-- iterations of the drain loop that have read `dma_wdata.cndtr` -/
  ringPolls : Nat
  /-- the first of them came after the engine had passed `dma_w.prod` -/
  passedEarly : Bool

namespace FwRun

/-- `floppy_write(wr)` is entered. -/
def enter (run : WrRun) (indexCount : BitVec 32) : FwRun where
  run := run
  indexCount := indexCount
  stopIndex :=
    if run.tx.wr.terminateAtIndex ≠ 0 then indexCount + run.tx.wr.terminateAtIndex
    else indexCount - 1
  todo := ~~~0
  pc := .fill
  wgate := true
  timer := true
  dmaOn := true
  pulses := 0
  pulsesSincePoll := 0
  readsSincePoll := 0
  ringPolls := 0
  passedEarly := false

/-- `out:` turn off the output pin, the timer and the DMA. -/
def out (s : FwRun) : FwRun :=
  { s with pc := .exited, wgate := false, timer := false, dmaOn := false }

/-- The engine has passed `dma_w.prod`. -/
def Passed (s : FwRun) : Prop := s.run.stored.length < s.run.sent.length

instance (s : FwRun) : Decidable s.Passed := inferInstanceAs (Decidable (_ < _))

/-- The program runs up to its next volatile read. -/
def advance (m : Mem) (ticksPerCell : BitVec 32) (s : FwRun) : FwRun :=
  match s.pc with
  | .fill =>
      if s.run.tx.wr.bcCons ≠ s.run.tx.wr.nrWords * 16 then
        { s with run := s.run.refill m ticksPerCell true, pc := .fillIndex, readsSincePoll := 0 }
      else { s with pc := .drainIndex, todo := ~~~0 }
  | .fillIndex =>
      if s.indexCount = s.stopIndex then s.out else { s with pc := .fill, pulsesSincePoll := 0 }
  | .drainIndex =>
      if s.indexCount = s.stopIndex then s.out
      else { s with pc := .drainRing, pulsesSincePoll := 0 }
  | .drainRing =>
      let dmacons := s.run.tx.cndtr.index
      let todo := (s.run.tx.prod - dmacons) &&& bufMask
      let s' := { s with
        todo := todo
        readsSincePoll := 0
        ringPolls := s.ringPolls + 1
        passedEarly := if s.ringPolls = 0 then decide s.Passed else s.passedEarly }
      if todo ≠ 0 ∧ todo ≤ s.todo then { s' with pc := .drainIndex } else s'.out
  | .exited => s

/-- The DMA engine transfers one entry. -/
def dma (s : FwRun) : FwRun := { s with run := s.run.dma, readsSincePoll := s.readsSincePoll + 1 }

/-- An index pulse. -/
def pulse (s : FwRun) : FwRun :=
  { s with
    indexCount := s.indexCount + 1
    pulses := s.pulses + 1
    pulsesSincePoll := s.pulsesSincePoll + 1 }

/-- The engine had passed `dma_w.prod` before the drain loop's first poll. -/
def PassedBeforeFirstPoll (s : FwRun) : Prop :=
  if s.ringPolls = 0 then s.Passed else s.passedEarly = true

end FwRun

/-- One step of a running `floppy_write`: of the program, of the DMA engine
(fewer than 1024 entries between two reads of its counter, never past
`dma_w.prod` while bitcells are left to convert), or an index pulse (at most one
between two reads of `index.count`, fewer than `2^32 - 1` in total). -/
inductive FwStep (m : Mem) (ticksPerCell : BitVec 32) : FwRun → FwRun → Prop where
  | advance (s : FwRun) : s.pc ≠ .exited → FwStep m ticksPerCell s (s.advance m ticksPerCell)
  | dma (s : FwRun) : s.pc ≠ .exited →
      0 < s.run.queued ∨ s.run.tx.wr.bcCons = s.run.tx.wr.nrWords * 16 →
      s.readsSincePoll + 1 < ringSize → FwStep m ticksPerCell s s.dma
  | pulse (s : FwRun) : s.pulsesSincePoll = 0 → s.pulses + 1 < 2 ^ 32 - 1 →
      FwStep m ticksPerCell s s.pulse

/-! ## The ring, also when the engine has run past its end -/

/-- The engine has read the whole flux sequence, and possibly stale entries
behind it. -/
structure WrRun.Overrun (m : Mem) (ticksPerCell : BitVec 32) (wr : Write) (s : WrRun) : Prop where
  nrWords_eq : s.tx.wr.nrWords = wr.nrWords
  converted : s.tx.wr.bcCons = wr.nrWords * 16
  sent_ge : s.stored.length ≤ s.sent.length
  prod_lt : s.tx.prod.toNat < ringSize
  index_eq : s.tx.cndtr.index.toNat =
    (s.tx.prod.toNat + (s.sent.length - s.stored.length)) % ringSize
  complete : fluxSequence m ticksPerCell wr <+: s.sent

section Ring

variable {m : Mem} {ticksPerCell : BitVec 32} {wr : Write} {s : WrRun}

/-- Once every bitcell is converted, everything has been stored. -/
theorem WrRun.Fifo.stored_complete (h : s.Fifo m ticksPerCell wr)
    (hconv : s.tx.wr.bcCons = wr.nrWords * 16) : s.stored = fluxSequence m ticksPerCell wr := by
  have hstored := h.stored_eq
  have hnil : (wr.bits m).drop s.tx.wr.bcCons = [] := List.drop_eq_nil_of_le (by simp [hconv])
  rw [hnil, emit_nil, List.append_nil] at hstored
  rw [fluxSequence_eq m ticksPerCell wr h.even, hstored]

/-- A drained ring is the beginning of an overrun. -/
theorem WrRun.Fifo.overrun (h : s.Fifo m ticksPerCell wr)
    (hconv : s.tx.wr.bcCons = wr.nrWords * 16) (hq : s.queued = 0) :
    s.Overrun m ticksPerCell wr := by
  have hsent := h.sent_le
  have hlen : s.stored.length = s.sent.length := by
    simp only [WrRun.queued] at hq
    omega
  have hidx : s.tx.prod.toNat = s.tx.cndtr.index.toNat := by
    rw [h.prod_eq, hq, Nat.add_zero, Nat.mod_eq_of_lt s.tx.cndtr.index_lt]
  refine ⟨h.nrWords_eq, hconv, by omega, ?_, ?_, ?_⟩
  · rw [hidx]
    exact s.tx.cndtr.index_lt
  · rw [hidx, hlen, Nat.sub_self, Nat.add_zero, Nat.mod_eq_of_lt s.tx.cndtr.index_lt]
  · have hall : s.sent = fluxSequence m ticksPerCell wr :=
      (h.sent_prefix.eq_of_length hlen.symm).trans (h.stored_complete hconv)
    exact hall ▸ List.prefix_refl _

theorem WrRun.Overrun.dma (h : s.Overrun m ticksPerCell wr) : s.dma.Overrun m ticksPerCell wr := by
  have hge := h.sent_ge
  have hidx := h.index_eq
  refine ⟨h.nrWords_eq, h.converted, ?_, h.prod_lt, ?_, h.complete.trans (List.prefix_append _ _)⟩
  · simp only [WrRun.dma, List.length_append]
    omega
  · simp only [WrRun.dma, Cndtr.index_next, List.length_append, List.length_singleton]
    simp only [ringSize] at *
    omega

/-- What the drain loop computes while the ring is not drained. -/
theorem WrRun.Fifo.todo_eq (h : s.Fifo m ticksPerCell wr) :
    ((s.tx.prod - s.tx.cndtr.index) &&& bufMask).toNat = s.queued := by
  have hq := h.queued_lt
  have hp := h.prod_eq
  have hi := s.tx.cndtr.index_lt
  rw [toNat_and_bufMask, BitVec.toNat_sub]
  simp only [ringSize] at *
  omega

/-- What the drain loop computes once the engine has run past the end. -/
theorem WrRun.Overrun.todo_eq (h : s.Overrun m ticksPerCell wr)
    (hlt : s.sent.length - s.stored.length < ringSize) :
    ((s.tx.prod - s.tx.cndtr.index) &&& bufMask).toNat =
      (ringSize - (s.sent.length - s.stored.length)) % ringSize := by
  have hi := h.index_eq
  have hp := h.prod_lt
  rw [toNat_and_bufMask, BitVec.toNat_sub]
  simp only [ringSize] at *
  omega

end Ring

/-! ## The invariant -/

/-- What holds of every running `floppy_write`. -/
structure FwRun.Inv (m : Mem) (ticksPerCell : BitVec 32) (wr : Write) (entryCount : BitVec 32)
    (s : FwRun) : Prop where
  ring : s.run.Fifo m ticksPerCell wr ∨ s.run.Overrun m ticksPerCell wr
  stop_eq : s.stopIndex =
    if wr.terminateAtIndex ≠ 0 then entryCount + wr.terminateAtIndex else entryCount - 1
  count_eq : s.indexCount = entryCount + BitVec.ofNat 32 s.pulses
  pulses_lt : s.pulses < 2 ^ 32 - 1
  poll_le : s.pulsesSincePoll ≤ 1
  early : s.pc ≠ .exited → wr.terminateAtIndex ≠ 0 →
    s.pulses < wr.terminateAtIndex.toNat + s.pulsesSincePoll
  filling : s.pc = .fill ∨ s.pc = .fillIndex → s.ringPolls = 0
  draining : s.pc = .drainIndex ∨ s.pc = .drainRing →
    s.run.tx.wr.bcCons = wr.nrWords * 16 ∧
      (s.ringPolls = 0 → s.todo = ~~~0) ∧
      (0 < s.ringPolls → s.passedEarly = false →
        s.todo.toNat + s.run.sent.length = s.run.stored.length + s.readsSincePoll ∧
          0 < s.todo.toNat) ∧
      (0 < s.ringPolls → s.passedEarly = true → s.Passed)
  reads_lt : s.readsSincePoll < ringSize
  outputs : s.pc ≠ .exited → s.wgate = true ∧ s.timer = true ∧ s.dmaOn = true
  outputs_off : s.pc = .exited → s.wgate = false ∧ s.timer = false ∧ s.dmaOn = false
  exit : s.pc = .exited →
    (wr.terminateAtIndex ≠ 0 ∧ wr.terminateAtIndex.toNat ≤ s.pulses) ∨
      fluxSequence m ticksPerCell wr <+: s.run.sent

namespace FwRun.Inv

variable {m : Mem} {ticksPerCell : BitVec 32} {wr : Write} {entryCount : BitVec 32} {s : FwRun}

theorem nrWords_eq (h : s.Inv m ticksPerCell wr entryCount) :
    s.run.tx.wr.nrWords = wr.nrWords :=
  h.ring.elim (·.nrWords_eq) (·.nrWords_eq)

/-- `index.count` can only meet `stop_index` at the requested pulse. -/
theorem stop_reached (h : s.Inv m ticksPerCell wr entryCount) (heq : s.indexCount = s.stopIndex) :
    wr.terminateAtIndex ≠ 0 ∧ wr.terminateAtIndex.toNat = s.pulses := by
  have hp := h.pulses_lt
  have hcount := congrArg BitVec.toNat (h.count_eq.symm.trans (heq.trans h.stop_eq))
  have h1 : (1 : BitVec 32).toNat = 1 := rfl
  by_cases hx : wr.terminateAtIndex = 0
  · simp only [hx, ne_eq, not_true_eq_false, if_false, BitVec.toNat_add, BitVec.toNat_sub,
      BitVec.toNat_ofNat, h1] at hcount
    omega
  · simp only [ne_eq, hx, not_false_eq_true, if_true, BitVec.toNat_add, BitVec.toNat_ofNat]
      at hcount
    exact ⟨hx, by omega⟩

/-- Leaving keeps the invariant, whatever the drain loop has noted down. -/
theorem leave (h : s.Inv m ticksPerCell wr entryCount) (todo : BitVec 16) (ringPolls : Nat)
    (passedEarly : Bool) {reads : Nat} (hreads : reads < ringSize)
    (hexit : (wr.terminateAtIndex ≠ 0 ∧ wr.terminateAtIndex.toNat ≤ s.pulses) ∨
      fluxSequence m ticksPerCell wr <+: s.run.sent) :
    ({ s with
        todo := todo
        readsSincePoll := reads
        ringPolls := ringPolls
        passedEarly := passedEarly } : FwRun).out.Inv m ticksPerCell wr entryCount where
  ring := h.ring
  stop_eq := h.stop_eq
  count_eq := h.count_eq
  pulses_lt := h.pulses_lt
  poll_le := h.poll_le
  early := fun hpc => absurd rfl hpc
  filling := fun hpc => by rcases hpc with hpc | hpc <;> cases hpc
  draining := fun hpc => by rcases hpc with hpc | hpc <;> cases hpc
  reads_lt := hreads
  outputs := fun hpc => absurd rfl hpc
  outputs_off := fun _ => ⟨rfl, rfl, rfl⟩
  exit := fun _ => hexit

/-- Leaving through the index test is leaving at the requested pulse. -/
theorem out_of_stop (h : s.Inv m ticksPerCell wr entryCount) (heq : s.indexCount = s.stopIndex) :
    s.out.Inv m ticksPerCell wr entryCount :=
  h.leave s.todo s.ringPolls s.passedEarly h.reads_lt
    (Or.inl ⟨(h.stop_reached heq).1, Nat.le_of_eq (h.stop_reached heq).2⟩)

/-- An index test that does not leave: the requested pulse has not come yet. -/
theorem early_of_ne (h : s.Inv m ticksPerCell wr entryCount) (hpc : s.pc ≠ .exited)
    (hne : s.indexCount ≠ s.stopIndex) (hx : wr.terminateAtIndex ≠ 0) :
    s.pulses < wr.terminateAtIndex.toNat := by
  have hearly := h.early hpc hx
  have hpoll := h.poll_le
  have hneq : s.pulses ≠ wr.terminateAtIndex.toNat := by
    intro heq
    apply hne
    rw [h.count_eq, h.stop_eq, if_pos hx, heq, BitVec.ofNat_toNat, BitVec.setWidth_eq]
  omega

/-- A poll of the drain loop after which it goes on, where the engine had not passed
`dma_w.prod` before the first one: what it saw accounts for every entry. -/
theorem drain_stays (h : s.Inv m ticksPerCell wr entryCount) (hpc : s.pc = .drainRing)
    (hpos : 0 < ((s.run.tx.prod - s.run.tx.cndtr.index) &&& bufMask).toNat)
    (hle : ((s.run.tx.prod - s.run.tx.cndtr.index) &&& bufMask).toNat ≤ s.todo.toNat)
    (hnot : (if s.ringPolls = 0 then decide s.Passed else s.passedEarly) = false) :
    ((s.run.tx.prod - s.run.tx.cndtr.index) &&& bufMask).toNat + s.run.sent.length =
      s.run.stored.length := by
  obtain ⟨-, -, hlater, -⟩ := h.draining (Or.inr hpc)
  have hreads := h.reads_lt
  rcases h.ring with hf | ho
  · have hsent := hf.sent_le
    rw [hf.todo_eq]
    simp only [WrRun.queued]
    omega
  · -- past the end the sum is only right if the first poll was late, and it was not
    have hge := ho.sent_ge
    by_cases hz : s.ringPolls = 0
    · rw [if_pos hz] at hnot
      have hnp : ¬ s.run.stored.length < s.run.sent.length := of_decide_eq_false hnot
      rw [ho.todo_eq (by simp [ringSize]; omega)] at hpos
      simp only [ringSize] at hpos
      omega
    · rw [if_neg hz] at hnot
      obtain ⟨hsum, htodo⟩ := hlater (Nat.pos_of_ne_zero hz) hnot
      rw [ho.todo_eq (by omega)] at hle hpos
      simp only [ringSize] at hle hpos hreads
      omega

/-- A poll of the drain loop at which it leaves, everything having been sent. -/
theorem drain_leaves (h : s.Inv m ticksPerCell wr entryCount) (hpc : s.pc = .drainRing)
    (hleave : ¬ ((s.run.tx.prod - s.run.tx.cndtr.index) &&& bufMask ≠ 0 ∧
      (s.run.tx.prod - s.run.tx.cndtr.index) &&& bufMask ≤ s.todo)) :
    fluxSequence m ticksPerCell wr <+: s.run.sent := by
  obtain ⟨hconv, hfirst, hlater, hpassed⟩ := h.draining (Or.inr hpc)
  have hreads := h.reads_lt
  rcases h.ring with hf | ho
  · -- the ring is still a queue: the loop leaves only when it is empty
    have hsent := hf.sent_le
    have hqueued := hf.queued_lt
    have hq : s.run.queued = 0 := by
      by_contra hne
      apply hleave
      have htodo := hf.todo_eq
      refine ⟨fun hz => hne (by rw [← htodo, hz]; rfl), ?_⟩
      rw [BitVec.le_def, htodo]
      by_cases hz : s.ringPolls = 0
      · rw [hfirst hz]
        have hmax : (~~~0 : BitVec 16).toNat = 65535 := rfl
        simp only [ringSize] at hqueued
        omega
      · have hnot : s.passedEarly = false := by
          by_contra hp
          have := hpassed (Nat.pos_of_ne_zero hz) (by simpa using hp)
          simp only [FwRun.Passed] at this
          omega
        obtain ⟨hsum, -⟩ := hlater (Nat.pos_of_ne_zero hz) hnot
        simp only [WrRun.queued]
        omega
    exact (hf.overrun hconv hq).complete
  · exact ho.complete

/-- The drain loop reads the DMA counter: it leaves only with everything sent. -/
theorem advance_drainRing (h : s.Inv m ticksPerCell wr entryCount) (hpc : s.pc = .drainRing) :
    (s.advance m ticksPerCell).Inv m ticksPerCell wr entryCount := by
  obtain ⟨hconv, -, -, hpassed⟩ := h.draining (Or.inr hpc)
  simp only [FwRun.advance, hpc]
  split
  · rename_i hstay
    -- the loop goes on: record what this poll saw
    refine
      { ring := h.ring, stop_eq := h.stop_eq, count_eq := h.count_eq, pulses_lt := h.pulses_lt
        poll_le := h.poll_le
        early := fun _ hx => h.early (by rw [hpc]; decide) hx
        filling := fun hpc' => by rcases hpc' with hpc' | hpc' <;> cases hpc'
        draining := fun _ => ⟨hconv, fun hz => absurd hz (Nat.succ_ne_zero _), ?_, ?_⟩
        reads_lt := by simp [ringSize]
        outputs := fun _ => h.outputs (by rw [hpc]; decide)
        outputs_off := fun hpc' => by cases hpc'
        exit := fun hpc' => by cases hpc' }
    · intro _ hnot
      have hpos : 0 < ((s.run.tx.prod - s.run.tx.cndtr.index) &&& bufMask).toNat := by
        rw [Nat.pos_iff_ne_zero]
        intro hz
        exact hstay.1 (BitVec.eq_of_toNat_eq (by simpa using hz))
      exact ⟨h.drain_stays hpc hpos hstay.2 hnot, hpos⟩
    · intro _ hearly
      by_cases hz : s.ringPolls = 0
      · rw [if_pos hz] at hearly
        exact of_decide_eq_true hearly
      · rw [if_neg hz] at hearly
        exact hpassed (Nat.pos_of_ne_zero hz) hearly
  · rename_i hleave
    exact h.leave _ _ _ (by simp [ringSize]) (Or.inr (h.drain_leaves hpc hleave))

/-- The fill loop refills the ring, or goes on to drain it. -/
theorem advance_fill (h : s.Inv m ticksPerCell wr entryCount) (hpc : s.pc = .fill) :
    (s.advance m ticksPerCell).Inv m ticksPerCell wr entryCount := by
  have hrunning : s.pc ≠ .exited := by rw [hpc]; decide
  have hpolls := h.filling (Or.inl hpc)
  simp only [FwRun.advance, hpc]
  split
  · rename_i hne
    rw [h.nrWords_eq] at hne
    have hf : s.run.Fifo m ticksPerCell wr := h.ring.resolve_right fun ho => hne ho.converted
    exact
      { ring := Or.inl (hf.refill true), stop_eq := h.stop_eq, count_eq := h.count_eq
        pulses_lt := h.pulses_lt, poll_le := h.poll_le
        early := fun _ hx => h.early hrunning hx
        filling := fun _ => hpolls
        draining := fun hpc' => by rcases hpc' with hpc' | hpc' <;> cases hpc'
        reads_lt := by simp [ringSize]
        outputs := fun _ => h.outputs hrunning
        outputs_off := fun hpc' => by cases hpc'
        exit := fun hpc' => by cases hpc' }
  · rename_i hdone
    have hconv : s.run.tx.wr.bcCons = wr.nrWords * 16 := by
      rw [← h.nrWords_eq]
      exact not_not.mp hdone
    exact
      { ring := h.ring, stop_eq := h.stop_eq, count_eq := h.count_eq
        pulses_lt := h.pulses_lt, poll_le := h.poll_le
        early := fun _ hx => h.early hrunning hx
        filling := fun hpc' => by rcases hpc' with hpc' | hpc' <;> cases hpc'
        draining := fun _ => ⟨hconv, fun _ => rfl,
          fun hz => absurd hpolls (Nat.pos_iff_ne_zero.mp hz),
          fun hz => absurd hpolls (Nat.pos_iff_ne_zero.mp hz)⟩
        reads_lt := h.reads_lt
        outputs := fun _ => h.outputs hrunning
        outputs_off := fun hpc' => by cases hpc'
        exit := fun hpc' => by cases hpc' }

/-- The index test of the fill loop. -/
theorem advance_fillIndex (h : s.Inv m ticksPerCell wr entryCount) (hpc : s.pc = .fillIndex) :
    (s.advance m ticksPerCell).Inv m ticksPerCell wr entryCount := by
  have hrunning : s.pc ≠ .exited := by rw [hpc]; decide
  simp only [FwRun.advance, hpc]
  split
  · rename_i heq
    exact h.out_of_stop heq
  · rename_i hne
    exact
      { ring := h.ring, stop_eq := h.stop_eq, count_eq := h.count_eq
        pulses_lt := h.pulses_lt, poll_le := Nat.zero_le _
        early := fun _ hx => h.early_of_ne hrunning hne hx
        filling := fun _ => h.filling (Or.inr hpc)
        draining := fun hpc' => by rcases hpc' with hpc' | hpc' <;> cases hpc'
        reads_lt := h.reads_lt
        outputs := fun _ => h.outputs hrunning
        outputs_off := fun hpc' => by cases hpc'
        exit := fun hpc' => by cases hpc' }

/-- The index test of the drain loop. -/
theorem advance_drainIndex (h : s.Inv m ticksPerCell wr entryCount) (hpc : s.pc = .drainIndex) :
    (s.advance m ticksPerCell).Inv m ticksPerCell wr entryCount := by
  have hrunning : s.pc ≠ .exited := by rw [hpc]; decide
  simp only [FwRun.advance, hpc]
  split
  · rename_i heq
    exact h.out_of_stop heq
  · rename_i hne
    exact
      { ring := h.ring, stop_eq := h.stop_eq, count_eq := h.count_eq
        pulses_lt := h.pulses_lt, poll_le := Nat.zero_le _
        early := fun _ hx => h.early_of_ne hrunning hne hx
        filling := fun hpc' => by rcases hpc' with hpc' | hpc' <;> cases hpc'
        draining := fun _ => h.draining (Or.inl hpc)
        reads_lt := h.reads_lt
        outputs := fun _ => h.outputs hrunning
        outputs_off := fun hpc' => by cases hpc'
        exit := fun hpc' => by cases hpc' }

/-- The program's own steps keep the invariant. -/
theorem advance (h : s.Inv m ticksPerCell wr entryCount) (hpc : s.pc ≠ .exited) :
    (s.advance m ticksPerCell).Inv m ticksPerCell wr entryCount := by
  cases hcase : s.pc with
  | fill => exact h.advance_fill hcase
  | fillIndex => exact h.advance_fillIndex hcase
  | drainIndex => exact h.advance_drainIndex hcase
  | drainRing => exact h.advance_drainRing hcase
  | exited => exact absurd hcase hpc

/-- The DMA engine keeps the invariant. -/
theorem dma (h : s.Inv m ticksPerCell wr entryCount) (hpc : s.pc ≠ .exited)
    (hguard : 0 < s.run.queued ∨ s.run.tx.wr.bcCons = s.run.tx.wr.nrWords * 16)
    (hreads : s.readsSincePoll + 1 < ringSize) : s.dma.Inv m ticksPerCell wr entryCount where
  ring := by
    rcases h.ring with hf | ho
    · by_cases hq : 0 < s.run.queued
      · exact Or.inl (hf.dma hq)
      · have hconv := hguard.resolve_left hq
        rw [h.nrWords_eq] at hconv
        exact Or.inr (hf.overrun hconv (by omega)).dma
    · exact Or.inr ho.dma
  stop_eq := h.stop_eq
  count_eq := h.count_eq
  pulses_lt := h.pulses_lt
  poll_le := h.poll_le
  early := h.early
  filling := h.filling
  draining := fun hpc' => by
    obtain ⟨hconv, hfirst, hlater, hpassed⟩ := h.draining hpc'
    refine ⟨hconv, hfirst, fun hz hnot => ?_, fun hz hp => ?_⟩
    · obtain ⟨hsum, hpos⟩ := hlater hz hnot
      refine ⟨?_, hpos⟩
      simp only [FwRun.dma, WrRun.dma, List.length_append, List.length_singleton]
      omega
    · have := hpassed hz hp
      simp only [FwRun.Passed, FwRun.dma, WrRun.dma, List.length_append] at this ⊢
      omega
  reads_lt := hreads
  outputs := h.outputs
  outputs_off := h.outputs_off
  exit := fun hpc' => absurd hpc' hpc

/-- An index pulse keeps the invariant. -/
theorem pulse (h : s.Inv m ticksPerCell wr entryCount) (hpoll : s.pulsesSincePoll = 0)
    (htotal : s.pulses + 1 < 2 ^ 32 - 1) : s.pulse.Inv m ticksPerCell wr entryCount where
  ring := h.ring
  stop_eq := h.stop_eq
  count_eq := by
    rw [FwRun.pulse, h.count_eq, BitVec.add_assoc]
    simp [BitVec.ofNat_add]
  pulses_lt := htotal
  poll_le := by simp [FwRun.pulse, hpoll]
  early := fun hpc hx => by
    have := h.early hpc hx
    simp only [FwRun.pulse]
    omega
  filling := h.filling
  draining := h.draining
  reads_lt := h.reads_lt
  outputs := h.outputs
  outputs_off := h.outputs_off
  exit := fun hpc => (h.exit hpc).imp_left fun hx => ⟨hx.1, Nat.le_succ_of_le hx.2⟩

theorem step {t : FwRun} (hstep : FwStep m ticksPerCell s t)
    (h : s.Inv m ticksPerCell wr entryCount) : t.Inv m ticksPerCell wr entryCount := by
  cases hstep with
  | advance hpc => exact h.advance hpc
  | dma hpc hguard hreads => exact h.dma hpc hguard hreads
  | pulse hpoll htotal => exact h.pulse hpoll htotal

/-- `floppy_write` is entered with a ring that is a queue. -/
theorem enter {run : WrRun} (hrun : run.Fifo m ticksPerCell wr)
    (hterm : run.tx.wr.terminateAtIndex = wr.terminateAtIndex) :
    (FwRun.enter run entryCount).Inv m ticksPerCell wr entryCount where
  ring := Or.inl hrun
  stop_eq := by simp only [FwRun.enter, hterm]
  count_eq := by simp [FwRun.enter]
  pulses_lt := by simp [FwRun.enter]
  poll_le := by simp [FwRun.enter]
  early := fun _ hx => by
    have hpos : wr.terminateAtIndex.toNat ≠ 0 := fun hz => hx (BitVec.eq_of_toNat_eq hz)
    simp only [FwRun.enter]
    omega
  filling := fun _ => rfl
  draining := fun hpc => by rcases hpc with hpc | hpc <;> cases hpc
  reads_lt := by simp [FwRun.enter, ringSize]
  outputs := fun _ => ⟨rfl, rfl, rfl⟩
  outputs_off := fun hpc => by cases hpc
  exit := fun hpc => by cases hpc

/-- A poll of the DMA counter leaves the drain loop as soon as the engine has
reached `dma_w.prod`, unless it had passed it before the first poll. -/
theorem drainRing_leaves (h : s.Inv m ticksPerCell wr entryCount) (hpc : s.pc = .drainRing)
    (hreached : s.run.stored.length ≤ s.run.sent.length) (hnot : ¬ s.PassedBeforeFirstPoll) :
    (s.advance m ticksPerCell).pc = .exited := by
  obtain ⟨hconv, -, hlater, -⟩ := h.draining (Or.inr hpc)
  have hreads := h.reads_lt
  have ho : s.run.Overrun m ticksPerCell wr := by
    rcases h.ring with hf | ho
    · exact hf.overrun hconv (by simp only [WrRun.queued]; omega)
    · exact ho
  -- either the ring is exactly empty, or the distance has wrapped upwards
  have hleave : ¬ (((s.run.tx.prod - s.run.tx.cndtr.index) &&& bufMask) ≠ 0 ∧
      ((s.run.tx.prod - s.run.tx.cndtr.index) &&& bufMask) ≤ s.todo) := by
    rintro ⟨hne, hle⟩
    rw [BitVec.le_def] at hle
    have hpos : 0 < ((s.run.tx.prod - s.run.tx.cndtr.index) &&& bufMask).toNat := by
      rw [Nat.pos_iff_ne_zero]
      exact fun hz => hne (BitVec.eq_of_toNat_eq (by simpa using hz))
    unfold FwRun.PassedBeforeFirstPoll at hnot
    by_cases hz : s.ringPolls = 0
    · rw [if_pos hz] at hnot
      simp only [FwRun.Passed] at hnot
      rw [ho.todo_eq (by simp only [ringSize]; omega)] at hpos
      simp only [ringSize] at hpos
      omega
    · rw [if_neg hz, Bool.not_eq_true] at hnot
      obtain ⟨hsum, -⟩ := hlater (Nat.pos_of_ne_zero hz) hnot
      rw [ho.todo_eq (by omega)] at hle hpos
      simp only [ringSize] at hle hpos hreads
      omega
  simp only [FwRun.advance, hpc, if_neg hleave, FwRun.out]

/-- The first test of `index.count` after the requested pulse leaves. -/
theorem index_leaves (h : s.Inv m ticksPerCell wr entryCount)
    (hpc : s.pc = .fillIndex ∨ s.pc = .drainIndex) (hx : wr.terminateAtIndex ≠ 0)
    (hpulses : wr.terminateAtIndex.toNat ≤ s.pulses) :
    (s.advance m ticksPerCell).pc = .exited := by
  have hstop : s.indexCount = s.stopIndex := by
    by_contra hne
    have := h.early_of_ne (by rcases hpc with hpc | hpc <;> rw [hpc] <;> decide) hne hx
    omega
  rcases hpc with hpc | hpc <;> simp only [FwRun.advance, hpc, if_pos hstop, FwRun.out]

end FwRun.Inv

/-- Preparing a write leaves its `terminate_at_index` alone. -/
theorem WrRun.prep_terminateAtIndex {m : Mem} {ticksPerCell : BitVec 32} {wr : Write}
    {latencySensitive : Bool} {buf : Nat → BitVec 16} {s : WrRun}
    (h : WrRun.prep m ticksPerCell wr latencySensitive buf = some s) :
    s.tx.wr.terminateAtIndex = wr.terminateAtIndex := by
  obtain ⟨tx, htx, rfl⟩ := Option.map_eq_some_iff.mp h
  unfold floppyWriteSetup at htx
  split at htx
  · cases htx
    exact wdataBcToFluxTbuf_terminateAtIndex ..
  · cases htx

/-- **`floppy_write` stops neither early nor late.**  From its entry on, under
any interleaving with the DMA engine and the index sensor: outputs, timer and
DMA are off exactly behind `out:`, which is reached only after the requested
number of index pulses or with the whole flux sequence sent; and each loop leaves
at the first poll after its condition has become true (the drain loop, unless the
engine had passed `dma_w.prod` before its first poll). -/
theorem floppy_write_exit (m : Mem) (ticksPerCell : BitVec 32) (wr : Write)
    (latencySensitive : Bool) (buf : Nat → BitVec 16) (s₀ : WrRun) (entryCount : BitVec 32)
    (s : FwRun) (hprep : WrRun.prep m ticksPerCell wr latencySensitive buf = some s₀)
    (hrun : Relation.ReflTransGen (FwStep m ticksPerCell) (FwRun.enter s₀ entryCount) s) :
    (if s.pc = .exited then s.wgate = false ∧ s.timer = false ∧ s.dmaOn = false
      else s.wgate = true ∧ s.timer = true ∧ s.dmaOn = true) ∧
    (s.pc = .exited →
      (wr.terminateAtIndex ≠ 0 ∧ wr.terminateAtIndex.toNat ≤ s.pulses) ∨
        fluxSequence m ticksPerCell wr <+: s.run.sent) ∧
    (s.pc = .drainRing → s.run.stored.length ≤ s.run.sent.length → ¬ s.PassedBeforeFirstPoll →
      (s.advance m ticksPerCell).pc = .exited) ∧
    (s.pc = .fillIndex ∨ s.pc = .drainIndex → wr.terminateAtIndex ≠ 0 →
      wr.terminateAtIndex.toNat ≤ s.pulses → (s.advance m ticksPerCell).pc = .exited) := by
  have hinv : s.Inv m ticksPerCell wr entryCount :=
    run_invariant (fun _ _ hstep h => h.step hstep) hrun
      (FwRun.Inv.enter (WrRun.prep_fifo hprep) (WrRun.prep_terminateAtIndex hprep))
  refine ⟨?_, hinv.exit, hinv.drainRing_leaves, hinv.index_leaves⟩
  by_cases hpc : s.pc = .exited
  · rw [if_pos hpc]
    exact hinv.outputs_off hpc
  · rw [if_neg hpc]
    exact hinv.outputs hpc

/-- One set bit, sent, and polled out of the drain loop. -/
theorem floppy_write_exit_one_bit :
    ∃ s : FwRun, s.pc = .exited ∧ ((0 : BitVec 32) ≠ 0 ∧ (0 : BitVec 32).toNat ≤ s.pulses ∨
      fluxSequence (Function.update (fun _ => 0) 0 0x80) 8 ⟨0, 2, 0, 0, 0⟩ <+: s.run.sent) := by
  let r₀ : WrRun := (⟨⟨⟨0, 2, 0, 0, 0⟩, 0, fun _ => 0, Cndtr.start⟩, [], []⟩ : WrRun).refill
    (Function.update (fun _ => 0) 0 0x80) 8 false
  let s₀ : FwRun := FwRun.enter r₀ 0
  have h₁ : Relation.ReflTransGen (FwStep (Function.update (fun _ => 0) 0 0x80) 8) s₀
      (s₀.advance (Function.update (fun _ => 0) 0 0x80) 8) :=
    .single (FwStep.advance _ (by decide))
  have h₂ := h₁.tail (FwStep.dma _ (by decide) (by decide) (by decide))
  have h₃ := h₂.tail (FwStep.advance _ (by decide))
  have h₄ := h₃.tail (FwStep.advance _ (by decide))
  exact ⟨_, by decide, (floppy_write_exit _ 8 ⟨0, 2, 0, 0, 0⟩ false (fun _ => 0) r₀ 0 _ rfl h₄).2.1
    (by decide)⟩

end FlashFloppyTestbed.Floppy
