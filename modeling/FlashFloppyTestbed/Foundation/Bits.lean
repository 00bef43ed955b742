/-
  Foundation/Bits.lean --- bit strings, most significant bit first, and the shift
  registers that scan them.

  A bit string is a `List Bool`.  `bitsOf` reads a word off from its top bit and
  `pushBits` shifts a bit string into a register from the bottom, so that a
  register of width `w` holds the last `w` bits of whatever was pushed
  (`bitsOf_pushBits`).  A scanner that compares such a register with a constant
  after every bit is therefore a search for a substring
  (`pushBits_eq_iff`), provided the register starts in a state that cannot be
  mistaken for the beginning of the constant (`pushBits_allOnes_eq_iff`).

  Nothing in this file is about a particular program.
-/
import Mathlib.Data.List.Basic
import Mathlib.Data.List.GetD
import Mathlib.Tactic.Common

set_option autoImplicit false

namespace FlashFloppyTestbed.Foundation

/-! ## Words as bit strings -/

/-- The bits of a word, most significant first. -/
def bitsOf {w : Nat} (x : BitVec w) : List Bool := (List.range w).map x.getMsbD

@[simp] theorem length_bitsOf {w : Nat} (x : BitVec w) : (bitsOf x).length = w := by
  simp [bitsOf]

@[simp] theorem getElem_bitsOf {w : Nat} (x : BitVec w) (i : Nat)
    (h : i < (bitsOf x).length) : (bitsOf x)[i] = x.getMsbD i := by
  simp [bitsOf]

theorem bitsOf_injective {w : Nat} {x y : BitVec w} (h : bitsOf x = bitsOf y) : x = y := by
  apply BitVec.eq_of_getMsbD_eq
  intro i hi
  have hx : i < (bitsOf x).length := by simpa using hi
  have hy : i < (bitsOf y).length := by simpa using hi
  have hbit : (bitsOf x)[i] = (bitsOf y)[i] := by simp only [h]
  rwa [getElem_bitsOf, getElem_bitsOf] at hbit

theorem bitsOf_inj {w : Nat} {x y : BitVec w} : bitsOf x = bitsOf y ↔ x = y :=
  ⟨bitsOf_injective, fun h => h ▸ rfl⟩

theorem bitsOf_append {v w : Nat} (x : BitVec v) (y : BitVec w) :
    bitsOf (x ++ y) = bitsOf x ++ bitsOf y := by
  apply List.ext_getElem
  · simp
  · intro i h₁ h₂
    rw [getElem_bitsOf, BitVec.getMsbD_append, List.getElem_append]
    by_cases hi : v ≤ i
    · simp [hi, Nat.not_lt.mpr hi]
    · simp [hi, Nat.lt_of_not_le hi]

/-! ## Fields of a concatenation -/

theorem extractLsb'_append_right {v w : Nat} (x : BitVec v) (y : BitVec w) {s k : Nat}
    (h : s + k ≤ w) : (x ++ y).extractLsb' s k = y.extractLsb' s k := by
  apply BitVec.eq_of_getLsbD_eq
  intro i hi
  rw [BitVec.getLsbD_extractLsb', BitVec.getLsbD_extractLsb', BitVec.getLsbD_append,
    if_pos (by omega)]

theorem extractLsb'_append_left {v w : Nat} (x : BitVec v) (y : BitVec w) (s k : Nat) :
    (x ++ y).extractLsb' (w + s) k = x.extractLsb' s k := by
  apply BitVec.eq_of_getLsbD_eq
  intro i _
  rw [BitVec.getLsbD_extractLsb', BitVec.getLsbD_extractLsb', BitVec.getLsbD_append,
    if_neg (by omega), show w + s + i - w = s + i by omega]

/-! ## Shift registers -/

/-- Shift a bit string into a register, first bit first. -/
def pushBits {w : Nat} (x : BitVec w) (l : List Bool) : BitVec w := l.foldl BitVec.shiftConcat x

@[simp] theorem pushBits_nil {w : Nat} (x : BitVec w) : pushBits x [] = x := rfl

@[simp] theorem pushBits_cons {w : Nat} (x : BitVec w) (b : Bool) (l : List Bool) :
    pushBits x (b :: l) = pushBits (x.shiftConcat b) l := rfl

theorem pushBits_append {w : Nat} (x : BitVec w) (l₁ l₂ : List Bool) :
    pushBits x (l₁ ++ l₂) = pushBits (pushBits x l₁) l₂ := by
  simp [pushBits]

/-- Bit `i` of the register: one of the pushed bits while `i` is below their
number, else a bit the register held before. -/
theorem getLsbD_pushBits {w : Nat} (l : List Bool) :
    ∀ (x : BitVec w) (i : Nat), i < w →
      (pushBits x l).getLsbD i =
        if i < l.length then l.getD (l.length - 1 - i) false else x.getLsbD (i - l.length) := by
  induction l with
  | nil => intro x i _; simp
  | cons b l ih =>
    intro x i hi
    rw [pushBits_cons, ih _ i hi]
    simp only [List.length_cons, Nat.add_sub_cancel]
    by_cases hlt : i < l.length
    · have hidx : l.length - i = (l.length - 1 - i) + 1 := by omega
      rw [if_pos hlt, if_pos (by omega), hidx, List.getD_cons_succ]
    · rw [if_neg hlt, BitVec.getLsbD_shiftConcat]
      by_cases heq : i = l.length
      · subst heq
        simp [show 0 < w by omega]
      · have hpos : i - l.length ≠ 0 := by omega
        have hlt' : i - l.length < w := by omega
        rw [if_neg (show ¬ i < l.length + 1 by omega), if_neg hpos,
          show i - l.length - 1 = i - (l.length + 1) by omega]
        simp [hlt']

/-- A register of width `w` holds the last `w` bits pushed into it. -/
theorem bitsOf_pushBits {w : Nat} (x : BitVec w) (l : List Bool) (h : w ≤ l.length) :
    bitsOf (pushBits x l) = l.drop (l.length - w) := by
  apply List.ext_getElem
  · simp; omega
  · intro i h₁ h₂
    have hi : i < w := by simpa using h₁
    rw [getElem_bitsOf, BitVec.getMsbD_eq_getLsbD, getLsbD_pushBits _ _ _ (by omega),
      if_pos (by omega), List.getElem_drop]
    have hidx : l.length - 1 - (w - 1 - i) = l.length - w + i := by omega
    rw [hidx, List.getD_eq_getElem _ _ (by omega)]
    simp [hi]

theorem pushBits_of_length {w : Nat} (x y : BitVec w) (l : List Bool) (h : w ≤ l.length) :
    pushBits x l = pushBits y l :=
  bitsOf_injective (by rw [bitsOf_pushBits x l h, bitsOf_pushBits y l h])

/-- Pushing the bits of a word overwrites a register of the same width with it. -/
theorem pushBits_bitsOf {w : Nat} (x y : BitVec w) : pushBits x (bitsOf y) = y :=
  bitsOf_injective (by rw [bitsOf_pushBits x _ (by simp)]; simp)

/-- The register equals `y` exactly when the last `w` bits pushed spell it. -/
theorem pushBits_eq_iff {w : Nat} (x y : BitVec w) (l : List Bool) (h : w ≤ l.length) :
    pushBits x l = y ↔ l.drop (l.length - w) = bitsOf y := by
  rw [← bitsOf_pushBits x l h]
  exact bitsOf_inj.symm

/-- A register started at all ones cannot reach a value with a clear top bit
before `w` bits have been pushed. -/
theorem pushBits_allOnes_ne {w : Nat} (y : BitVec w) (l : List Bool) (hy : y.msb = false)
    (h : l.length < w) : pushBits (BitVec.allOnes w) l ≠ y := by
  intro heq
  have htop : (pushBits (BitVec.allOnes w) l).getLsbD (w - 1) = false := by
    rw [heq, ← BitVec.msb_eq_getLsbD_last, hy]
  rw [getLsbD_pushBits _ _ _ (by omega), if_neg (by omega)] at htop
  simp [show w - 1 - l.length < w by omega] at htop

/-- A scan with a register started at all ones sees `y` exactly where the bits
pushed so far end with the bits of `y`. -/
theorem pushBits_allOnes_eq_iff {w : Nat} (y : BitVec w) (l : List Bool) (hy : y.msb = false) :
    pushBits (BitVec.allOnes w) l = y ↔ bitsOf y <:+ l := by
  by_cases h : w ≤ l.length
  · rw [pushBits_eq_iff _ _ _ h, List.suffix_iff_eq_drop, length_bitsOf]
    exact eq_comm
  · constructor
    · intro heq
      exact absurd heq (pushBits_allOnes_ne y l hy (by omega))
    · intro hs
      have := hs.length_le
      simp at this
      omega

/-! ## The shifts as programs write them -/

theorem shiftLeft_one_eq {w : Nat} (x : BitVec w) : x <<< 1 = x.shiftConcat false := by
  apply BitVec.eq_of_getLsbD_eq
  intro i hi
  simp only [BitVec.getLsbD_shiftLeft, BitVec.getLsbD_shiftConcat, hi, decide_true, Bool.true_and]
  cases i <;> simp

/-- A shift that leaves one bit depends on that bit only. -/
theorem shiftLeft_last_congr {w : Nat} {x y : BitVec (w + 1)} (h : x.getLsbD 0 = y.getLsbD 0) :
    x <<< w = y <<< w := by
  apply BitVec.eq_of_getLsbD_eq
  intro i hi
  rw [BitVec.getLsbD_shiftLeft, BitVec.getLsbD_shiftLeft]
  by_cases hlow : i < w
  · rw [decide_eq_true hlow, Bool.not_true, Bool.and_false, Bool.false_and, Bool.false_and]
  · rw [show i - w = 0 by omega, h]

theorem shiftLeft_one_or_one_eq {w : Nat} (x : BitVec w) :
    (x <<< 1) ||| 1#w = x.shiftConcat true := by
  apply BitVec.eq_of_getLsbD_eq
  intro i hi
  have hw : 0 < w := by omega
  simp only [BitVec.getLsbD_or, BitVec.getLsbD_shiftLeft, BitVec.getLsbD_shiftConcat, hi,
    decide_true, Bool.true_and, BitVec.getLsbD_one]
  cases i <;> simp [hw]

theorem pushBits_replicate_false {w : Nat} (n : Nat) (x : BitVec w) :
    pushBits x (List.replicate n false) = x <<< n := by
  induction n generalizing x with
  | zero => simp
  | succ n ih =>
    rw [List.replicate_succ, pushBits_cons, ih, ← shiftLeft_one_eq, ← BitVec.shiftLeft_add,
      Nat.add_comm 1 n]

/-- `n` clear bits and one set bit, pushed in one go. -/
theorem pushBits_gap {w : Nat} (x : BitVec w) (n : Nat) :
    pushBits x (List.replicate n false ++ [true]) = (x <<< (n + 1)) ||| 1#w := by
  rw [pushBits_append, pushBits_replicate_false, pushBits_cons, pushBits_nil,
    ← shiftLeft_one_or_one_eq, BitVec.shiftLeft_add]

end FlashFloppyTestbed.Foundation
