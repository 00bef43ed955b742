/-
  Floppy/Wdata.lean --- bitcells to flux: `_wdata_bc_to_flux` and
  `wdata_bc_to_flux` of `src/floppy_generic.c`.

  The conversion walks the big-endian bitcell buffer bit by bit, adds one cell
  (in 1/16 ticks) per bit and emits a timer reload value at every set bit.  It
  works a 32-bit word at a time and can stop in the middle of one.
  `wdataBcToFluxTbuf_eq` removes the words: a call is one bounded pass of the
  transducer `fluxStep` over the bits not yet consumed.

  Tick counts wrap at 32 bits and reload values at 16, as in the source.  Bit
  counts (`bc_cons`, `nr_words * 16`) are natural numbers: they count bits of a
  buffer that is in memory.
-/
import FlashFloppyTestbed.Memory
import FlashFloppyTestbed.Foundation.Transducer
import FlashFloppyTestbed.Floppy.Dma

set_option autoImplicit false

namespace FlashFloppyTestbed.Floppy

open FlashFloppyTestbed.Foundation

/-- `struct write`. -/
structure Write where
  /-- Bitcell output buffer. -/
  p : Nat
  /-- Number of words (16-bitcells) to write. -/
  nrWords : Nat
  /-- Terminate write early at Xth index hole. 0 does not terminate early. -/
  terminateAtIndex : BitVec 32
  /-- Accumulated ticks (SYSCLK*16) since previous flux reversal. -/
  ticksSinceFlux : BitVec 32
  /-- Progress through input buffer (in bitcells). -/
  bcCons : Nat

/-! ## The conversion -/

/-- The inner loop of `_wdata_bc_to_flux`: the `left = 32 - y` bits still in
`x`.  Returns the samples stored, `ticks`, `32 - y` and `todo` at its exit. -/
def wdataWord (ticksPerCell : BitVec 32) :
    Nat → BitVec 32 → BitVec 32 → Nat → List (BitVec 16) × BitVec 32 × Nat × Nat
  | 0, _, ticks, todo => ([], ticks, 0, todo)
  | left + 1, x, ticks, todo =>
      let ticks := ticks + ticksPerCell
      if x.msb then
        let sample := ((ticks >>> 4) - 1).setWidth 16
        let ticks := ticks &&& 15
        if todo - 1 = 0 then ([sample], ticks, left, 0)
        else
          let r := wdataWord ticksPerCell left (x <<< 1) ticks (todo - 1)
          (sample :: r.1, r.2)
      else wdataWord ticksPerCell left (x <<< 1) ticks todo

/-- The outer loop: one iteration per (rest of a) 32-bit word.  Returns the
samples stored, `ticks` and the value for `bc_cons`. -/
def wdataWords (m : Mem) (p : Nat) (ticksPerCell : BitVec 32) (bcP : Nat) :
    Nat → Nat → BitVec 32 → Nat → List (BitVec 16) × BitVec 32 × Nat
  | 0, bcC, ticks, _ => ([], ticks, bcC)
  | fuel + 1, bcC, ticks, todo =>
      if bcC = bcP then ([], ticks, bcC)
      else
        let y := bcC % 32
        let x := be32toh (m.ld32 (p + 4 * (bcC / 32))) <<< y
        let (samples, ticks, left, todo) := wdataWord ticksPerCell (32 - y) x ticks todo
        if todo = 0 then (samples, ticks, bcC + (32 - y) - left)
        else
          let r := wdataWords m p ticksPerCell bcP fuel (bcC + (32 - y)) ticks todo
          (samples ++ r.1, r.2)

/-- `_wdata_bc_to_flux(wr, tbuf, nr)` on a drive with the given
`ticks_per_cell`: the samples stored through `tbuf`, in order, and `*wr`.  The
outer loop runs once per word of the buffer at most. -/
def wdataBcToFluxTbuf (m : Mem) (ticksPerCell : BitVec 32) (wr : Write) (nr : Nat) :
    List (BitVec 16) × Write :=
  if nr = 0 then ([], wr)
  else
    let bcP := wr.nrWords * 16
    let r := wdataWords m wr.p (ticksPerCell <<< 4) bcP (bcP - wr.bcCons) wr.bcCons
      wr.ticksSinceFlux nr
    (r.1, { wr with ticksSinceFlux := r.2.1, bcCons := r.2.2 })

@[simp] theorem wdataBcToFluxTbuf_terminateAtIndex (m : Mem) (ticksPerCell : BitVec 32)
    (wr : Write) (nr : Nat) :
    (wdataBcToFluxTbuf m ticksPerCell wr nr).2.terminateAtIndex = wr.terminateAtIndex := by
  unfold wdataBcToFluxTbuf
  split <;> rfl

/-! ## The conversion as a transducer -/

/-- One bitcell: `ticksPerCell` is in 1/16 ticks. -/
def fluxStep (ticksPerCell ticks : BitVec 32) (b : Bool) : BitVec 32 × Option (BitVec 16) :=
  let ticks := ticks + ticksPerCell
  if b then (ticks &&& 15, some (((ticks >>> 4) - 1).setWidth 16)) else (ticks, none)

/-- The bitcells of a write buffer. -/
def Write.bits (m : Mem) (wr : Write) : List Bool := m.bits wr.p (2 * wr.nrWords)

@[simp] theorem Write.length_bits (m : Mem) (wr : Write) :
    (wr.bits m).length = wr.nrWords * 16 := by
  simp [Write.bits]
  omega

theorem fluxStep_true (tpc ticks : BitVec 32) :
    fluxStep tpc ticks true =
      ((ticks + tpc) &&& 15, some ((((ticks + tpc) >>> 4) - 1).setWidth 16)) := rfl

theorem fluxStep_false (tpc ticks : BitVec 32) :
    fluxStep tpc ticks false = (ticks + tpc, none) := rfl

/-- The bits still in the shifted word. -/
theorem bitsOf_take_succ (x : BitVec 32) (left : Nat) (h : left < 32) :
    (bitsOf x).take (left + 1) = x.msb :: (bitsOf (x <<< 1)).take left := by
  apply List.ext_getElem
  · simp; omega
  · intro i h₁ h₂
    rw [List.getElem_take, getElem_bitsOf]
    cases i with
    | zero => rfl
    | succ i => rw [List.getElem_cons_succ, List.getElem_take, getElem_bitsOf,
        BitVec.getMsbD_shiftLeft]

/-- The inner loop is a bounded pass over the bits left in the word. -/
theorem wdataWord_eq (tpc : BitVec 32) (left : Nat) : ∀ (x ticks : BitVec 32) (todo : Nat),
    left ≤ 32 → 0 < todo →
    wdataWord tpc left x ticks todo =
      let r := emitUpTo (fluxStep tpc) todo ticks ((bitsOf x).take left)
      (r.out, r.state, r.rest.length, r.todo) := by
  induction left with
  | zero => intro x ticks todo _ _; simp [wdataWord]
  | succ left ih =>
    intro x ticks todo hleft htodo
    have hlen : ((bitsOf (x <<< 1)).take left).length = left := by simp; omega
    rw [bitsOf_take_succ x left (by omega), wdataWord]
    cases hb : x.msb with
    | false =>
      rw [emitUpTo_cons_none _ (fluxStep_false tpc ticks)]
      simpa using ih (x <<< 1) (ticks + tpc) todo (by omega) htodo
    | true =>
      rcases todo with _ | _ | k
      · omega
      · rw [emitUpTo_cons_last _ (fluxStep_true tpc ticks)]
        simp only [hlen]
        simp
      · rw [emitUpTo_cons_some _ (fluxStep_true tpc ticks)]
        have hrest := ih (x <<< 1) ((ticks + tpc) &&& 15#32) (k + 1) (by omega) (by omega)
        simp [hrest]

/-- The bits of the buffer that one iteration of the outer loop converts. -/
theorem bits_drop_word (m : Mem) (wr : Write) (bcC : Nat) (heven : wr.nrWords % 2 = 0)
    (h : bcC < wr.nrWords * 16) :
    (wr.bits m).drop bcC =
      (bitsOf (be32toh (m.ld32 (wr.p + 4 * (bcC / 32))) <<< (bcC % 32))).take (32 - bcC % 32) ++
        (wr.bits m).drop (bcC + (32 - bcC % 32)) := by
  have hword : m.bits (wr.p + 4 * (bcC / 32)) 4 =
      ((wr.bits m).drop (32 * (bcC / 32))).take 32 := by
    rw [Write.bits, m.bits_sub wr.p (2 * wr.nrWords) (4 * (bcC / 32)) 4 (by omega)]
    congr 2
    omega
  have hshift : (bitsOf (be32toh (m.ld32 (wr.p + 4 * (bcC / 32))) <<< (bcC % 32))).take
      (32 - bcC % 32) = ((wr.bits m).drop bcC).take (32 - bcC % 32) := by
    have hlen : (wr.bits m).length = wr.nrWords * 16 := Write.length_bits m wr
    apply List.ext_getElem
    · simp
      omega
    · intro i h₁ h₂
      have hi : i < 32 - bcC % 32 := by
        simp at h₁
        omega
      have hbound : i + bcC % 32 < (m.bits (wr.p + 4 * (bcC / 32)) 4).length := by
        simp
        omega
      have hget : (be32toh (m.ld32 (wr.p + 4 * (bcC / 32)))).getMsbD (i + bcC % 32) =
          (m.bits (wr.p + 4 * (bcC / 32)) 4)[i + bcC % 32] := by
        simp only [← Mem.bitsOf_be32toh_ld32, getElem_bitsOf]
      rw [List.getElem_take, getElem_bitsOf, BitVec.getMsbD_shiftLeft, hget, List.getElem_take,
        List.getElem_drop]
      simp only [hword, List.getElem_take, List.getElem_drop]
      congr 1
      omega
  rw [hshift, ← List.drop_drop, List.take_append_drop]

/-- The outer loop is a bounded pass over the bits not yet consumed. -/
theorem wdataWords_eq (m : Mem) (wr : Write) (tpc : BitVec 32) (heven : wr.nrWords % 2 = 0)
    (fuel : Nat) : ∀ (bcC : Nat) (ticks : BitVec 32) (todo : Nat),
    bcC ≤ wr.nrWords * 16 → wr.nrWords * 16 - bcC ≤ fuel → 0 < todo →
    wdataWords m wr.p tpc (wr.nrWords * 16) fuel bcC ticks todo =
      let r := emitUpTo (fluxStep tpc) todo ticks ((wr.bits m).drop bcC)
      (r.out, r.state, wr.nrWords * 16 - r.rest.length) := by
  induction fuel with
  | zero =>
    intro bcC ticks todo hle hfuel _
    have hbcC : (wr.bits m).drop bcC = [] := List.drop_eq_nil_of_le (by simp; omega)
    rw [wdataWords, hbcC, emitUpTo_nil]
    simp
    omega
  | succ fuel ih =>
    intro bcC ticks todo hle hfuel htodo
    rw [wdataWords]
    by_cases hend : bcC = wr.nrWords * 16
    · have hbcC : (wr.bits m).drop bcC = [] := List.drop_eq_nil_of_le (by simp; omega)
      rw [if_pos hend, hbcC, emitUpTo_nil]
      simp [hend]
    · have hlt : bcC < wr.nrWords * 16 := by omega
      have hword := wdataWord_eq tpc (32 - bcC % 32)
        (be32toh (m.ld32 (wr.p + 4 * (bcC / 32))) <<< (bcC % 32)) ticks todo (by omega) htodo
      have hnext : bcC + (32 - bcC % 32) ≤ wr.nrWords * 16 := by omega
      have hrest : ((wr.bits m).drop (bcC + (32 - bcC % 32))).length =
          wr.nrWords * 16 - (bcC + (32 - bcC % 32)) := by simp
      rw [if_neg hend, bits_drop_word m wr bcC heven hlt, emitUpTo_append _ _ _ _ _ htodo]
      simp only [hword]
      generalize hw : emitUpTo (fluxStep tpc) todo ticks
        ((bitsOf (be32toh (m.ld32 (wr.p + 4 * (bcC / 32))) <<< (bcC % 32))).take
          (32 - bcC % 32)) = w
      by_cases hz : w.todo = 0
      · simp only [hz, if_true, List.length_append, hrest]
        congr 2
        omega
      · have := ih (bcC + (32 - bcC % 32)) w.state w.todo hnext (by omega) (by omega)
        simp only [hz, if_false, this]

/-- **`_wdata_bc_to_flux` is one bounded pass over the bits not yet consumed.** -/
theorem wdataBcToFluxTbuf_eq (m : Mem) (ticksPerCell : BitVec 32) (wr : Write) (nr : Nat)
    (heven : wr.nrWords % 2 = 0) (hcons : wr.bcCons ≤ wr.nrWords * 16) (hnr : 0 < nr) :
    wdataBcToFluxTbuf m ticksPerCell wr nr =
      let r := emitUpTo (fluxStep (ticksPerCell <<< 4)) nr wr.ticksSinceFlux
        ((wr.bits m).drop wr.bcCons)
      (r.out, { wr with
        ticksSinceFlux := r.state, bcCons := wr.nrWords * 16 - r.rest.length }) := by
  rw [wdataBcToFluxTbuf, if_neg (by omega)]
  simp only [wdataWords_eq m wr (ticksPerCell <<< 4) heven _ wr.bcCons wr.ticksSinceFlux nr hcons
    (Nat.le_refl _) hnr]

/-- What a call does: it stores at most `nr` samples, the front of the flux
sequence of the bits not yet consumed, and leaves the rest to later calls. -/
theorem wdataBcToFluxTbuf_spec (m : Mem) (ticksPerCell : BitVec 32) (wr : Write) (nr : Nat)
    (heven : wr.nrWords % 2 = 0) (hcons : wr.bcCons ≤ wr.nrWords * 16) :
    let r := wdataBcToFluxTbuf m ticksPerCell wr nr
    r.1.length ≤ nr ∧ r.2.p = wr.p ∧ r.2.nrWords = wr.nrWords ∧ r.2.bcCons ≤ wr.nrWords * 16 ∧
      r.1 ++ emit (fluxStep (ticksPerCell <<< 4)) r.2.ticksSinceFlux
          ((wr.bits m).drop r.2.bcCons) =
        emit (fluxStep (ticksPerCell <<< 4)) wr.ticksSinceFlux ((wr.bits m).drop wr.bcCons) := by
  rcases Nat.eq_zero_or_pos nr with rfl | hpos
  · exact ⟨Nat.le_refl _, rfl, rfl, hcons, rfl⟩
  · obtain ⟨hlen, -, hsuff⟩ := emitUpTo_spec (fluxStep (ticksPerCell <<< 4))
      ((wr.bits m).drop wr.bcCons) _ wr.ticksSinceFlux hpos
    have hemit := emitUpTo_emit (fluxStep (ticksPerCell <<< 4))
      ((wr.bits m).drop wr.bcCons) _ wr.ticksSinceFlux hpos
    simp only [wdataBcToFluxTbuf_eq m ticksPerCell wr nr heven hcons hpos]
    generalize emitUpTo (fluxStep (ticksPerCell <<< 4)) nr wr.ticksSinceFlux
      ((wr.bits m).drop wr.bcCons) = c at *
    -- what is left is a suffix of the buffer, so its length says where it starts
    have hdrop : (wr.bits m).drop (wr.nrWords * 16 - c.rest.length) = c.rest := by
      have := List.suffix_iff_eq_drop.mp (hsuff.trans (List.drop_suffix _ _))
      rw [Write.length_bits] at this
      exact this.symm
    refine ⟨by omega, trivial, trivial, Nat.sub_le _ _, ?_⟩
    rw [hdrop, hemit]

end FlashFloppyTestbed.Floppy
