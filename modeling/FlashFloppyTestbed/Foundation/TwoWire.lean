/-
  Foundation/TwoWire.lean --- a peripheral behind a clock line and a data line.

  A transfer begins where data falls while the clock is high, and ends where data
  rises while the clock is high.  In between, bits are taken at the rising edges of
  the clock, least significant first.  From the falling edge behind the eighth bit
  to the next one the peripheral answers: it pulls data low to acknowledge.

  `Receiver.sees` is that, for any peripheral that is given by what it does with a
  start, a byte and a stop.  `Peripheral.frame` and `Peripheral.tries` say the same
  of whole bytes, without a wire.

  Nothing in this file is about a particular program.
-/
import FlashFloppyTestbed.Foundation.Bits

set_option autoImplicit false

namespace FlashFloppyTestbed.Foundation

/-- The levels of the two lines. -/
structure Line where
  clk : Bool
  dat : Bool
  deriving DecidableEq

/-- What a peripheral does, with a memory of type `σ`.  The flag of a byte is its
acknowledgement. -/
structure Peripheral (σ : Type) where
  start : σ → σ
  byte : σ → BitVec 8 → σ × Bool
  stop : σ → σ

/-! ## Bytes, without a wire -/

namespace Peripheral

variable {σ : Type} (P : Peripheral σ)

/-- Bytes up to the first that is not acknowledged, and whether there is one. -/
def bytes : List (BitVec 8) → σ → σ × Bool
  | [], s => (s, false)
  | x :: xs, s =>
    if (P.byte s x).2 then bytes xs (P.byte s x).1 else ((P.byte s x).1, true)

/-- A transfer. -/
def frame (xs : List (BitVec 8)) (s : σ) : σ × Bool :=
  (P.stop (P.bytes xs (P.start s)).1, (P.bytes xs (P.start s)).2)

/-- Transfers until one is acknowledged, `n` at most. -/
def tries (xs : List (BitVec 8)) : Nat → σ → σ × Bool
  | 0, s => (s, true)
  | n + 1, s => if (P.frame xs s).2 then tries xs n (P.frame xs s).1 else P.frame xs s

/-- The memory after `k` transfers. -/
def afterFrames (xs : List (BitVec 8)) : Nat → σ → σ
  | 0, s => s
  | k + 1, s => afterFrames xs k (P.frame xs s).1

/-- **The tries** end with the first transfer that is acknowledged, or have all failed. -/
theorem tries_cases (xs : List (BitVec 8)) (n : Nat) (s : σ) :
    (∃ k, k < n ∧ (∀ j, j < k → (P.frame xs (P.afterFrames xs j s)).2 = true) ∧
      (P.frame xs (P.afterFrames xs k s)).2 = false ∧
      P.tries xs n s = P.frame xs (P.afterFrames xs k s)) ∨
    ((∀ j, j < n → (P.frame xs (P.afterFrames xs j s)).2 = true) ∧
      P.tries xs n s = (P.afterFrames xs n s, true)) := by
  induction n generalizing s with
  | zero => exact .inr ⟨fun j hj => absurd hj (Nat.not_lt_zero j), rfl⟩
  | succ n ih =>
    rw [tries]
    by_cases hfail : (P.frame xs s).2 = true
    · rw [if_pos hfail]
      rcases ih (P.frame xs s).1 with ⟨k, hk, hbefore, hend, heq⟩ | ⟨hall, heq⟩
      · refine .inl ⟨k + 1, by omega, fun j hj => ?_, hend, heq⟩
        cases j with
        | zero => exact hfail
        | succ j => exact hbefore j (by omega)
      · refine .inr ⟨fun j hj => ?_, heq⟩
        cases j with
        | zero => exact hfail
        | succ j => exact hall j (by omega)
    · rw [if_neg hfail]
      exact .inl ⟨0, by omega, fun j hj => absurd hj (Nat.not_lt_zero j),
        Bool.eq_false_iff.mpr hfail, rfl⟩

end Peripheral

/-! ## The wire -/

/-- Where a receiver is in a transfer. -/
inductive Phase where
  /-- outside of transfers -/
  | idle
  /-- the bits of a byte so far -/
  | bits (l : List Bool)
  /-- behind a byte, and whether data is pulled low -/
  | answer (pull : Bool)
  deriving DecidableEq

/-- The bits of a byte in the order in which they are sent. -/
def bitsLsb (x : BitVec 8) : List Bool := (List.range 8).map x.getLsbD

/-- The byte with these bits. -/
def ofBitsLsb (l : List Bool) : BitVec 8 := pushBits 0 l.reverse

theorem ofBitsLsb_bitsLsb (x : BitVec 8) : ofBitsLsb (bitsLsb x) = x := by
  have hreverse : (bitsLsb x).reverse = bitsOf x := by
    rw [bitsLsb, bitsOf]
    rfl
  rw [ofBitsLsb, hreverse, pushBits_bitsOf]

/-- A peripheral's end of the wire. -/
structure Receiver (σ : Type) where
  phase : Phase
  mem : σ
  deriving DecidableEq

namespace Receiver

variable {σ : Type}

/-- Whether the receiver pulls data low. -/
def pulls (r : Receiver σ) : Bool :=
  match r.phase with
  | .answer pull => pull
  | _ => false

/-- A rising edge of the clock. -/
def rise (r : Receiver σ) (dat : Bool) : Receiver σ :=
  match r.phase with
  | .bits l => ⟨.bits (l ++ [dat]), r.mem⟩
  | _ => r

/-- A falling edge of the clock. -/
def fall (P : Peripheral σ) (r : Receiver σ) : Receiver σ :=
  match r.phase with
  | .idle => r
  | .bits l =>
    if l.length = 8 then ⟨.answer (P.byte r.mem (ofBitsLsb l)).2, (P.byte r.mem (ofBitsLsb l)).1⟩
    else r
  | .answer _ => ⟨.bits [], r.mem⟩

/-- Data rises while the clock is high. -/
def release (P : Peripheral σ) (r : Receiver σ) : Receiver σ :=
  match r.phase with
  | .idle => r
  | _ => ⟨.idle, P.stop r.mem⟩

/-- The lines change from `old` to `new`. -/
def sees (P : Peripheral σ) (old new : Line) (r : Receiver σ) : Receiver σ :=
  match old.clk, new.clk with
  | true, true =>
    match old.dat, new.dat with
    | true, false => ⟨.bits [], P.start r.mem⟩
    | false, true => r.release P
    | _, _ => r
  | false, true => r.rise new.dat
  | true, false => r.fall P
  | false, false => r

variable (P : Peripheral σ) (r : Receiver σ)

/-- No change is no event. -/
@[simp] theorem sees_self (l : Line) : r.sees P l l = r := by
  obtain ⟨clk, dat⟩ := l
  cases clk <;> cases dat <;> rfl

/-- Data is not looked at while the clock is low. -/
@[simp] theorem sees_low (d d' : Bool) : r.sees P ⟨false, d⟩ ⟨false, d'⟩ = r := rfl

end Receiver

end FlashFloppyTestbed.Foundation
