/-
  Floppy/WriteRing.lean --- the flux ring between `wdata_bc_to_flux` and the
  DMA engine.

  `wdata_bc_to_flux` fills the largest contiguous stretch it may; the DMA engine
  empties the ring one entry at a time, at moments of its own choosing.  The
  invariant `WrRun.Fifo` says that the ring is a queue: what has been stored and
  not yet sent is the window from the engine's index on, at most 1023 entries,
  and what is stored is a prefix of the flux sequence of the whole buffer.
-/
import FlashFloppyTestbed.Floppy.Wdata
import FlashFloppyTestbed.Foundation.Run

set_option autoImplicit false

namespace FlashFloppyTestbed.Floppy

open FlashFloppyTestbed.Foundation

/-- The state of a write in progress: `struct write`, `dma_w` and its channel. -/
structure Tx where
  wr : Write
  /-- `dma_w.prod` -/
  prod : BitVec 16
  /-- `dma_w.buf` -/
  buf : Nat → BitVec 16
  /-- `dma_wdata.cndtr` -/
  cndtr : Cndtr

/-- `*tbuf++ = …` for each sample of a list, from slot `i` on. -/
def storeSamples (buf : Nat → BitVec 16) (i : Nat) : List (BitVec 16) → Nat → BitVec 16
  | [] => buf
  | s :: l => storeSamples (Function.update buf i s) (i + 1) l

/-- The size `nr` of the stretch that `wdata_bc_to_flux` fills. -/
def wdataRoom (dmacons prod : BitVec 16) (latencySensitive : Bool) : BitVec 16 :=
  let nrToWrap := BitVec.ofNat 16 ringSize - prod
  let nrToCons := (dmacons - prod - 1) &&& bufMask
  let nr := if nrToWrap < nrToCons then nrToWrap else nrToCons
  if latencySensitive then
    let used := BitVec.ofNat 16 ringSize - nrToCons
    let cap := if 32 > used then 32 else used
    if nr < cap then nr else cap
  else nr

/-- The samples that `wdata_bc_to_flux` is about to store. -/
def wdataSamples (m : Mem) (ticksPerCell : BitVec 32) (tx : Tx) (latencySensitive : Bool) :
    List (BitVec 16) × Write :=
  wdataBcToFluxTbuf m ticksPerCell tx.wr (wdataRoom tx.cndtr.index tx.prod latencySensitive).toNat

/-- `wdata_bc_to_flux(wr, latency_sensitive)`. -/
def wdataBcToFlux (m : Mem) (ticksPerCell : BitVec 32) (tx : Tx) (latencySensitive : Bool) : Tx :=
  let r := wdataSamples m ticksPerCell tx latencySensitive
  { tx with
    wr := r.2
    buf := storeSamples tx.buf tx.prod.toNat r.1
    prod := (tx.prod + BitVec.ofNat 16 r.1.length) &&& bufMask }

/-- `_floppy_write_prep` up to its call of `wdata_bc_to_flux`; `none` is a
failed `ASSERT`. -/
def floppyWriteSetup (wr : Write) (buf : Nat → BitVec 16) : Option Tx :=
  if wr.p % 4 = 0 ∧ wr.nrWords % 2 = 0 then
    some
      { wr := { wr with ticksSinceFlux := 0, bcCons := 0 }
        prod := 0
        buf := buf
        cndtr := Cndtr.start }
  else none

/-- `_floppy_write_prep(wr, latency_sensitive)`, with what `dma_w.buf` held before. -/
def floppyWritePrep (m : Mem) (ticksPerCell : BitVec 32) (wr : Write) (latencySensitive : Bool)
    (buf : Nat → BitVec 16) : Option Tx :=
  (floppyWriteSetup wr buf).map fun tx => wdataBcToFlux m ticksPerCell tx latencySensitive

/-- The flux sequence of a whole buffer: one pass of `_wdata_bc_to_flux` from
its beginning, with room for more samples than the buffer has bits. -/
def fluxSequence (m : Mem) (ticksPerCell : BitVec 32) (wr : Write) : List (BitVec 16) :=
  (wdataBcToFluxTbuf m ticksPerCell { wr with ticksSinceFlux := 0, bcCons := 0 }
    (wr.nrWords * 16 + 1)).1

/-- The flux sequence is one uninterrupted pass over the bits of the buffer. -/
theorem fluxSequence_eq (m : Mem) (ticksPerCell : BitVec 32) (wr : Write)
    (heven : wr.nrWords % 2 = 0) :
    fluxSequence m ticksPerCell wr = emit (fluxStep (ticksPerCell <<< 4)) 0 (wr.bits m) := by
  have h := wdataBcToFluxTbuf_eq m ticksPerCell { wr with ticksSinceFlux := 0, bcCons := 0 }
    (wr.nrWords * 16 + 1) heven (Nat.zero_le _) (Nat.succ_pos _)
  rw [fluxSequence, h]
  exact emitUpTo_out_of_length_lt _ (by simp [Write.bits]; omega)

/-- A set bit is a flux reversal. -/
theorem emit_fluxStep_ne_nil (tpc ticks : BitVec 32) {l : List Bool} (h : true ∈ l) :
    emit (fluxStep tpc) ticks l ≠ [] := by
  induction l generalizing ticks with
  | nil => simp at h
  | cons b l ih =>
    cases b with
    | true =>
      rw [emit_cons_some _ (fluxStep_true tpc ticks)]
      exact List.cons_ne_nil _ _
    | false =>
      rw [emit_cons_none _ (fluxStep_false tpc ticks)]
      exact ih _ (by simpa using h)

/-! ## Runs -/

/-- A write in progress with its history: the samples stored into the ring and
the samples the DMA engine has read from it, both in order. -/
structure WrRun where
  tx : Tx
  stored : List (BitVec 16)
  sent : List (BitVec 16)

namespace WrRun

/-- The number of samples stored and not yet read. -/
def queued (s : WrRun) : Nat := s.stored.length - s.sent.length

/-- A call of `wdata_bc_to_flux`. -/
def refill (m : Mem) (ticksPerCell : BitVec 32) (s : WrRun) (latencySensitive : Bool) : WrRun :=
  { s with
    tx := wdataBcToFlux m ticksPerCell s.tx latencySensitive
    stored := s.stored ++ (wdataSamples m ticksPerCell s.tx latencySensitive).1 }

/-- The DMA engine reads one entry. -/
def dma (s : WrRun) : WrRun :=
  { s with
    tx := { s.tx with cndtr := s.tx.cndtr.next }
    sent := s.sent ++ [s.tx.buf s.tx.cndtr.index.toNat] }

/-- The run that `_floppy_write_prep` starts. -/
def prep (m : Mem) (ticksPerCell : BitVec 32) (wr : Write) (latencySensitive : Bool)
    (buf : Nat → BitVec 16) : Option WrRun :=
  (floppyWriteSetup wr buf).map fun tx =>
    (⟨tx, [], []⟩ : WrRun).refill m ticksPerCell latencySensitive

theorem prep_tx (m : Mem) (ticksPerCell : BitVec 32) (wr : Write) (latencySensitive : Bool)
    (buf : Nat → BitVec 16) :
    (prep m ticksPerCell wr latencySensitive buf).map WrRun.tx =
      floppyWritePrep m ticksPerCell wr latencySensitive buf := by
  simp [prep, floppyWritePrep, Function.comp_def, refill]

end WrRun

/-- One step of a write: a refill, or the DMA engine reading an entry without
passing `dma_w.prod`. -/
inductive WrStep (m : Mem) (ticksPerCell : BitVec 32) : WrRun → WrRun → Prop where
  | refill (s : WrRun) (latencySensitive : Bool) :
      WrStep m ticksPerCell s (s.refill m ticksPerCell latencySensitive)
  | dma (s : WrRun) : 0 < s.queued → WrStep m ticksPerCell s s.dma

/-! ## The size of a refill -/

section Room

variable {dmacons prod : BitVec 16} {k : Nat}

/-- With `k` entries queued there is room for `1023 - k`. -/
theorem nrToCons_toNat (hk : k < ringSize)
    (hprod : prod.toNat = (dmacons.toNat + k) % ringSize) :
    ((dmacons - prod - 1) &&& bufMask).toNat = 1023 - k := by
  have h1 : (1 : BitVec 16).toNat = 1 := rfl
  rw [toNat_and_bufMask]
  simp only [ringSize] at hk hprod ⊢
  simp only [BitVec.toNat_sub, h1]
  omega

theorem nrToWrap_toNat (hprod : prod.toNat < ringSize) :
    (BitVec.ofNat 16 ringSize - prod).toNat = ringSize - prod.toNat := by
  simp only [ringSize] at *
  simp only [BitVec.toNat_sub, BitVec.toNat_ofNat]
  omega

/-- A refill never wraps within one call, never fills the last free slot, and is
never empty unless the ring is full. -/
theorem wdataRoom_spec (hk : k < ringSize)
    (hprod : prod.toNat = (dmacons.toNat + k) % ringSize) (latencySensitive : Bool) :
    (wdataRoom dmacons prod latencySensitive).toNat ≤ 1023 - k ∧
      prod.toNat + (wdataRoom dmacons prod latencySensitive).toNat ≤ ringSize ∧
      (k < 1023 → 0 < (wdataRoom dmacons prod latencySensitive).toNat) := by
  have hlt : prod.toNat < ringSize := by
    rw [hprod]
    exact Nat.mod_lt _ (by decide)
  have hc := nrToCons_toNat hk hprod
  have hw := nrToWrap_toNat hlt
  have hu : (BitVec.ofNat 16 ringSize - ((dmacons - prod - 1) &&& bufMask)).toNat = k + 1 := by
    rw [BitVec.toNat_sub, hc]
    simp only [ringSize] at *
    simp only [BitVec.toNat_ofNat]
    omega
  simp only [wdataRoom]
  generalize (dmacons - prod - 1) &&& bufMask = nrToCons at *
  generalize BitVec.ofNat 16 ringSize - prod = nrToWrap at *
  generalize BitVec.ofNat 16 ringSize - nrToCons = used at *
  simp only [gt_iff_lt, BitVec.lt_def]
  have h32 : (32 : BitVec 16).toNat = 32 := rfl
  simp only [ringSize] at *
  cases latencySensitive with
  | false =>
    simp only [Bool.false_eq_true, if_false]
    split <;> omega
  | true =>
    simp only [if_true]
    split <;> split <;> split <;> omega

end Room

/-! ## The ring is a queue -/

/-- Storing a run of samples behind the queue appends it, as long as it neither
passes the consumer nor the end of the ring. -/
theorem window_storeSamples (l : List (BitVec 16)) : ∀ (buf : Nat → BitVec 16) (c k i : Nat),
    k + l.length < ringSize → i = (c + k) % ringSize → i + l.length ≤ ringSize →
    window (storeSamples buf i l) ringSize c (k + l.length) = window buf ringSize c k ++ l := by
  induction l with
  | nil => intro buf c k i _ _ _; simp [storeSamples]
  | cons s l ih =>
    intro buf c k i hk hi hwrap
    simp only [List.length_cons] at hk hwrap
    rw [storeSamples, List.length_cons, Nat.add_comm l.length 1, ← Nat.add_assoc]
    have hstep : window (Function.update buf i s) ringSize c (k + 1) =
        window buf ringSize c k ++ [s] := by
      rw [hi]
      exact window_update buf s (by omega)
    rcases l with _ | ⟨s', l⟩
    · simpa [storeSamples] using hstep
    · simp only [List.length_cons] at hk hwrap
      have hnext : i + 1 = (c + (k + 1)) % ringSize := by
        simp only [ringSize] at *
        omega
      rw [ih _ c (k + 1) (i + 1) (by simp only [List.length_cons]; omega) hnext
        (by simp only [List.length_cons]; omega), hstep]
      simp

/-- The ring between the two parties is a queue of at most 1023 samples, and
what went in is a prefix of the flux sequence of the buffer. -/
structure WrRun.Fifo (m : Mem) (ticksPerCell : BitVec 32) (wr : Write) (s : WrRun) : Prop where
  p_eq : s.tx.wr.p = wr.p
  nrWords_eq : s.tx.wr.nrWords = wr.nrWords
  even : wr.nrWords % 2 = 0
  cons_le : s.tx.wr.bcCons ≤ wr.nrWords * 16
  sent_le : s.sent.length ≤ s.stored.length
  queued_lt : s.queued < ringSize
  prod_eq : s.tx.prod.toNat = (s.tx.cndtr.index.toNat + s.queued) % ringSize
  window_eq : window s.tx.buf ringSize s.tx.cndtr.index.toNat s.queued =
    s.stored.drop s.sent.length
  sent_prefix : s.sent <+: s.stored
  stored_eq : s.stored ++ emit (fluxStep (ticksPerCell <<< 4)) s.tx.wr.ticksSinceFlux
      ((wr.bits m).drop s.tx.wr.bcCons) =
    emit (fluxStep (ticksPerCell <<< 4)) 0 (wr.bits m)

namespace WrRun.Fifo

variable {m : Mem} {ticksPerCell : BitVec 32} {wr : Write} {s : WrRun}

theorem bits_eq (h : s.Fifo m ticksPerCell wr) : s.tx.wr.bits m = wr.bits m := by
  rw [Write.bits, Write.bits, h.p_eq, h.nrWords_eq]

/-- The state `_floppy_write_prep` sets up: an empty ring. -/
theorem setup {buf : Nat → BitVec 16} {tx : Tx} (h : floppyWriteSetup wr buf = some tx) :
    (⟨tx, [], []⟩ : WrRun).Fifo m ticksPerCell wr := by
  unfold floppyWriteSetup at h
  split at h
  · rename_i hassert
    cases h
    refine ⟨rfl, rfl, hassert.2, Nat.zero_le _, Nat.le_refl _, ?_, ?_, rfl,
      List.prefix_refl _, by simp⟩
    · simp [WrRun.queued, ringSize]
    · simp [WrRun.queued]
  · cases h

/-- What a refill stores: the front of what is left to convert. -/
theorem samples_spec (h : s.Fifo m ticksPerCell wr) (latencySensitive : Bool) :
    let r := wdataSamples m ticksPerCell s.tx latencySensitive
    r.1.length ≤ 1023 - s.queued ∧
      s.tx.prod.toNat + r.1.length ≤ ringSize ∧
      r.2.p = wr.p ∧ r.2.nrWords = wr.nrWords ∧ r.2.bcCons ≤ wr.nrWords * 16 ∧
      r.1 ++ emit (fluxStep (ticksPerCell <<< 4)) r.2.ticksSinceFlux
          ((wr.bits m).drop r.2.bcCons) =
        emit (fluxStep (ticksPerCell <<< 4)) s.tx.wr.ticksSinceFlux
          ((wr.bits m).drop s.tx.wr.bcCons) := by
  intro r
  obtain ⟨hroom, hwrap, -⟩ :=
    wdataRoom_spec h.queued_lt h.prod_eq latencySensitive
  obtain ⟨hlen, hp, hnr, hcons, hemit⟩ := wdataBcToFluxTbuf_spec m ticksPerCell s.tx.wr
    (wdataRoom s.tx.cndtr.index s.tx.prod latencySensitive).toNat (h.nrWords_eq ▸ h.even)
    (h.nrWords_eq ▸ h.cons_le)
  rw [h.bits_eq] at hemit
  rw [h.nrWords_eq] at hcons hnr
  exact ⟨hlen.trans hroom, (Nat.add_le_add_left hlen _).trans hwrap, hp.trans h.p_eq, hnr, hcons,
    hemit⟩

/-- A refill keeps the ring a queue. -/
theorem refill (h : s.Fifo m ticksPerCell wr) (latencySensitive : Bool) :
    (s.refill m ticksPerCell latencySensitive).Fifo m ticksPerCell wr := by
  obtain ⟨hroom, hwrap, hp, hnr, hcons, hemit⟩ := h.samples_spec latencySensitive
  have hsent := h.sent_le
  have hqueued := h.queued_lt
  have hq : (s.refill m ticksPerCell latencySensitive).queued =
      s.queued + (wdataSamples m ticksPerCell s.tx latencySensitive).1.length := by
    simp only [WrRun.queued, WrRun.refill, List.length_append]
    omega
  have hlt : (s.refill m ticksPerCell latencySensitive).queued < ringSize := by
    rw [hq]
    simp only [ringSize] at *
    omega
  refine ⟨hp, hnr, h.even, hcons, ?_, hlt, ?_, ?_, ?_, ?_⟩
  · simp only [WrRun.refill, List.length_append]
    omega
  · have hprod := h.prod_eq
    rw [hq]
    simp only [WrRun.refill, wdataBcToFlux, toNat_and_bufMask, BitVec.toNat_add,
      BitVec.toNat_ofNat]
    simp only [ringSize] at *
    omega
  · rw [hq]
    simp only [WrRun.refill, wdataBcToFlux]
    rw [window_storeSamples _ _ _ _ _ (by rw [← hq]; exact hlt) h.prod_eq hwrap, h.window_eq,
      List.drop_append_of_le_length hsent]
  · exact h.sent_prefix.trans (List.prefix_append _ _)
  · simp only [WrRun.refill, wdataBcToFlux, List.append_assoc]
    rw [hemit, h.stored_eq]

/-- The DMA engine reads the oldest queued sample. -/
theorem dma (h : s.Fifo m ticksPerCell wr) (hq : 0 < s.queued) : s.dma.Fifo m ticksPerCell wr := by
  have hsent := h.sent_le
  have hqueued := h.queued_lt
  have hlt : s.sent.length < s.stored.length := by
    simp only [WrRun.queued] at hq
    omega
  have hdma : s.dma.queued = s.queued - 1 := by
    simp only [WrRun.queued, WrRun.dma, List.length_append, List.length_singleton]
    omega
  -- the head of the window is the sample read, its tail the new window
  have hwin := h.window_eq
  rw [show s.queued = s.dma.queued + 1 by omega, window_succ, Nat.mod_eq_of_lt
    s.tx.cndtr.index_lt, List.drop_eq_getElem_cons hlt] at hwin
  obtain ⟨hhead, htail⟩ := List.cons.inj hwin
  refine ⟨h.p_eq, h.nrWords_eq, h.even, h.cons_le, ?_, by omega, ?_, ?_, ?_, h.stored_eq⟩
  · simp only [WrRun.dma, List.length_append, List.length_singleton]
    omega
  · have hprod := h.prod_eq
    rw [hdma]
    simp only [WrRun.dma, Cndtr.index_next]
    simp only [ringSize] at *
    omega
  · simp only [WrRun.dma, Cndtr.index_next, window_mod, List.length_append, List.length_singleton]
    exact htail
  · have htake : s.sent = s.stored.take s.sent.length := List.prefix_iff_eq_take.mp h.sent_prefix
    have hnext : s.sent ++ [s.stored[s.sent.length]] = s.stored.take (s.sent.length + 1) := by
      rw [List.take_succ_eq_append_getElem hlt, ← htake]
    simp only [WrRun.dma]
    rw [hhead, hnext]
    exact List.take_prefix _ _

theorem step {t : WrRun} (hstep : WrStep m ticksPerCell s t) (h : s.Fifo m ticksPerCell wr) :
    t.Fifo m ticksPerCell wr := by
  cases hstep with
  | refill latencySensitive => exact h.refill latencySensitive
  | dma hq => exact h.dma hq

/-- A refill stores a sample whenever there is room and a set bit is left. -/
theorem refill_progress (h : s.Fifo m ticksPerCell wr) (latencySensitive : Bool)
    (hroom : s.queued < 1023) (hset : true ∈ (wr.bits m).drop s.tx.wr.bcCons) :
    s.stored.length < (s.refill m ticksPerCell latencySensitive).stored.length := by
  obtain ⟨-, -, hpos⟩ := wdataRoom_spec h.queued_lt h.prod_eq latencySensitive
  have hcons : s.tx.wr.bcCons ≤ s.tx.wr.nrWords * 16 := h.nrWords_eq ▸ h.cons_le
  have hr := wdataBcToFluxTbuf_eq m ticksPerCell s.tx.wr _ (h.nrWords_eq ▸ h.even) hcons
    (hpos hroom)
  rw [h.bits_eq] at hr
  have hne : (wdataSamples m ticksPerCell s.tx latencySensitive).1 ≠ [] := by
    intro hnil
    rw [wdataSamples, hr] at hnil
    exact emit_fluxStep_ne_nil _ _ hset (emit_eq_nil_of_out_eq_nil _ (hpos hroom) hnil)
  have := List.length_pos_iff.mpr hne
  simp only [WrRun.refill, List.length_append]
  omega

end WrRun.Fifo

/-- The run that `_floppy_write_prep` starts is a queue from the beginning. -/
theorem WrRun.prep_fifo {m : Mem} {ticksPerCell : BitVec 32} {wr : Write} {latencySensitive : Bool}
    {buf : Nat → BitVec 16} {s : WrRun}
    (h : WrRun.prep m ticksPerCell wr latencySensitive buf = some s) :
    s.Fifo m ticksPerCell wr := by
  unfold WrRun.prep at h
  obtain ⟨tx, htx, rfl⟩ := Option.map_eq_some_iff.mp h
  exact (WrRun.Fifo.setup htx).refill latencySensitive

/-- **The write ring loses nothing.**  From `_floppy_write_prep` on, under any
interleaving of refills with the DMA engine: the samples sent are a prefix of
the flux sequence of the buffer, the samples still queued sit untouched in the
ring behind them, at most 1023 are queued, and a refill stores a sample whenever
fewer than that are queued and a set bit is left. -/
theorem wdata_ring_fifo (m : Mem) (ticksPerCell : BitVec 32) (wr : Write) (latencySensitive : Bool)
    (buf : Nat → BitVec 16) (s₀ s : WrRun)
    (hprep : WrRun.prep m ticksPerCell wr latencySensitive buf = some s₀)
    (hrun : Relation.ReflTransGen (WrStep m ticksPerCell) s₀ s) :
    s.sent <+: fluxSequence m ticksPerCell wr ∧
      s.sent <+: s.stored ∧ s.stored <+: fluxSequence m ticksPerCell wr ∧
      window s.tx.buf ringSize s.tx.cndtr.index.toNat s.queued = s.stored.drop s.sent.length ∧
      s.queued ≤ 1023 ∧
      ∀ latencySensitive : Bool, s.queued < 1023 → true ∈ (wr.bits m).drop s.tx.wr.bcCons →
        s.stored.length < (s.refill m ticksPerCell latencySensitive).stored.length := by
  have hfifo : s.Fifo m ticksPerCell wr :=
    run_invariant (fun _ _ hstep h => h.step hstep) hrun (WrRun.prep_fifo hprep)
  have hstored : s.stored <+: fluxSequence m ticksPerCell wr := by
    rw [fluxSequence_eq m ticksPerCell wr hfifo.even, ← hfifo.stored_eq]
    exact List.prefix_append _ _
  refine ⟨hfifo.sent_prefix.trans hstored, hfifo.sent_prefix, hstored, hfifo.window_eq,
    Nat.le_of_lt_succ hfifo.queued_lt, fun latencySensitive hroom hset => ?_⟩
  exact hfifo.refill_progress latencySensitive hroom hset

/-- A buffer of one long with one set bit, prepared and sent. -/
theorem wdata_ring_fifo_one_bit :
    ∃ s : WrRun, s.sent = [(7 : BitVec 16)] ∧
      s.sent <+: fluxSequence (Function.update (fun _ => 0) 0 0x80) 8 ⟨0, 2, 0, 0, 0⟩ := by
  let s₀ : WrRun := (⟨⟨⟨0, 2, 0, 0, 0⟩, 0, fun _ => 0, Cndtr.start⟩, [], []⟩ : WrRun).refill
    (Function.update (fun _ => 0) 0 0x80) 8 false
  have hrun : Relation.ReflTransGen (WrStep (Function.update (fun _ => 0) 0 0x80) 8) s₀ s₀.dma :=
    .single (WrStep.dma _ (by decide))
  exact ⟨s₀.dma, by decide,
    (wdata_ring_fifo _ 8 ⟨0, 2, 0, 0, 0⟩ false (fun _ => 0) s₀ _ rfl hrun).1⟩

end FlashFloppyTestbed.Floppy
