/-
  Foundation/Remainder.lean --- what a linear feedback shift register computes.

  A bit string, first bit first, is a polynomial over the field of two elements.  The
  register is the remainder of the bit string, with as many zeros behind it as the register
  has bits, on division by the generator; what the register held before counts as the
  beginning of the string (`lfsr_remainder`).
-/
import FlashFloppyTestbed.Foundation.Lfsr
import Mathlib.Algebra.CharP.Two
import Mathlib.Algebra.Field.ZMod
import Mathlib.Algebra.Polynomial.Div
import Mathlib.Algebra.Polynomial.Monic
import Mathlib.Tactic.LinearCombination

set_option autoImplicit false

namespace FlashFloppyTestbed.Foundation

open Polynomial

/-- A bit as an element of the field. -/
def bit (b : Bool) : ZMod 2 := if b then 1 else 0

theorem bit_xor (b b' : Bool) : bit (b ^^ b') = bit b + bit b' := by
  cases b <;> cases b' <;> decide

/-- The polynomial of a bit string, highest power first. -/
noncomputable def polyOf (l : List Bool) : (ZMod 2)[X] := l.foldl (fun p b => X * p + C (bit b)) 0

theorem polyOf_concat (l : List Bool) (b : Bool) :
    polyOf (l ++ [b]) = X * polyOf l + C (bit b) := by
  rw [polyOf, List.foldl_append]
  rfl

theorem polyOf_append (l₁ l₂ : List Bool) :
    polyOf (l₁ ++ l₂) = X ^ l₂.length * polyOf l₁ + polyOf l₂ := by
  induction l₂ using List.reverseRecOn with
  | nil => simp [polyOf]
  | append_singleton l₂ b ih =>
    rw [← List.append_assoc, polyOf_concat, ih, polyOf_concat, List.length_append,
      List.length_singleton]
    ring

theorem polyOf_cons (b : Bool) (l : List Bool) :
    polyOf (b :: l) = C (bit b) * X ^ l.length + polyOf l := by
  have hone : polyOf [b] = C (bit b) := by simp [polyOf]
  rw [← List.singleton_append, polyOf_append, hone, mul_comm]

theorem polyOf_zipWith_xor (l : List Bool) : ∀ l' : List Bool, l.length = l'.length →
    polyOf (List.zipWith xor l l') = polyOf l + polyOf l' := by
  induction l with
  | nil =>
    intro l' hlen
    rw [List.length_nil] at hlen
    rw [List.length_eq_zero_iff.mp hlen.symm]
    simp [polyOf]
  | cons b l ih =>
    intro l' hlen
    obtain ⟨b', l', rfl⟩ := List.exists_cons_of_length_eq_add_one hlen.symm
    have hlen := Nat.succ.inj hlen
    rw [List.zipWith_cons_cons, polyOf_cons, polyOf_cons, polyOf_cons, ih l' hlen, bit_xor, C_add,
      List.length_zipWith, ← hlen, Nat.min_self]
    ring

theorem degree_polyOf_lt (l : List Bool) : (polyOf l).degree < l.length := by
  induction l with
  | nil => simp [polyOf]
  | cons b l ih =>
    rw [polyOf_cons, List.length_cons]
    refine (degree_add_le _ _).trans_lt (max_lt ?_ (ih.trans ?_))
    · exact (degree_C_mul_X_pow_le _ _).trans_lt (by exact_mod_cast Nat.lt_succ_self _)
    · exact_mod_cast Nat.lt_succ_self _

/-! ## Registers -/

section Register

variable {w : Nat}

theorem bitsOf_xor (x y : BitVec w) :
    bitsOf (x ^^^ y) = List.zipWith xor (bitsOf x) (bitsOf y) := by
  refine List.ext_getElem (by simp) fun i hi _ => ?_
  rw [getElem_bitsOf, List.getElem_zipWith, getElem_bitsOf, getElem_bitsOf, BitVec.getMsbD_xor]

/-- A shift takes the top bit off and puts a clear bit behind. -/
theorem msb_cons_bitsOf_shiftLeft (x : BitVec (w + 1)) :
    x.msb :: bitsOf (x <<< 1) = bitsOf x ++ [false] := by
  refine List.ext_getElem (by simp) fun i hi hi' => ?_
  rw [List.length_cons, length_bitsOf] at hi
  rw [List.getElem_append]
  split
  · rename_i hlt
    rw [getElem_bitsOf]
    cases i with
    | zero => rfl
    | succ i => rw [List.getElem_cons_succ, getElem_bitsOf, BitVec.getMsbD_shiftLeft]
  · rename_i hge
    rw [length_bitsOf] at hge
    obtain rfl : i = w + 1 := by omega
    rw [List.getElem_cons_succ, getElem_bitsOf, BitVec.getMsbD_shiftLeft,
      BitVec.getMsbD_of_ge _ _ (Nat.le_refl _)]
    simp

/-- The polynomial of a register. -/
noncomputable def regPoly (r : BitVec w) : (ZMod 2)[X] := polyOf (bitsOf r)

/-- The generator: the feedback, below its highest power. -/
noncomputable def generator (poly : BitVec w) : (ZMod 2)[X] := X ^ w + regPoly poly

theorem degree_regPoly_lt (r : BitVec w) : (regPoly r).degree < w := by
  have hlt := degree_polyOf_lt (bitsOf r)
  rwa [length_bitsOf] at hlt

theorem generator_monic (poly : BitVec w) : (generator poly).Monic :=
  monic_X_pow_add (degree_regPoly_lt poly)

theorem degree_generator (poly : BitVec w) : (generator poly).degree = w := by
  rw [generator, degree_add_eq_left_of_degree_lt] <;> rw [degree_X_pow]
  exact degree_regPoly_lt poly

theorem regPoly_xor (x y : BitVec w) : regPoly (x ^^^ y) = regPoly x + regPoly y := by
  rw [regPoly, bitsOf_xor, polyOf_zipWith_xor _ _ (by simp)]
  rfl

theorem regPoly_shiftLeft (x : BitVec w) :
    C (bit x.msb) * X ^ w + regPoly (x <<< 1) = X * regPoly x := by
  cases w with
  | zero => simp [regPoly, polyOf, bitsOf, BitVec.msb, BitVec.getMsbD, bit]
  | succ w =>
    have hbits := congrArg polyOf (msb_cons_bitsOf_shiftLeft x)
    rw [polyOf_cons, polyOf_concat, length_bitsOf] at hbits
    simpa [regPoly, bit] using hbits

/-- One step of the division. -/
theorem regPoly_lfsrStep (poly r : BitVec w) (b : Bool) :
    X * regPoly r + C (bit b) * X ^ w =
      regPoly (lfsrStep poly r b) + C (bit (r.msb ^^ b)) * generator poly := by
  have hfeed : regPoly (lfsrStep poly r b) =
      regPoly (r <<< 1) + C (bit (r.msb ^^ b)) * regPoly poly := by
    rw [lfsrStep]
    cases r.msb ^^ b with
    | false => simp [bit]
    | true => simp [bit, regPoly_xor]
  rw [← regPoly_shiftLeft, hfeed, generator, bit_xor, C_add]
  have htwo : C (bit (r.msb)) * regPoly poly + C (bit r.msb) * regPoly poly = 0 :=
    CharTwo.add_self_eq_zero _
  have htwo' : C (bit b) * regPoly poly + C (bit b) * regPoly poly = 0 := CharTwo.add_self_eq_zero _
  linear_combination -htwo - htwo'

/-- **The register is a remainder.** -/
theorem lfsr_remainder (poly : BitVec w) (l : List Bool) : ∀ r : BitVec w,
    regPoly (lfsr poly r l) = (X ^ l.length * regPoly r + X ^ w * polyOf l) %ₘ generator poly := by
  have hdvd : ∀ (l : List Bool) (r : BitVec w), generator poly ∣
      (X ^ l.length * regPoly r + X ^ w * polyOf l) - regPoly (lfsr poly r l) := by
    intro l
    induction l with
    | nil => intro r; simp [polyOf]
    | cons b l ih =>
      intro r
      obtain ⟨q, hq⟩ := ih (lfsrStep poly r b)
      refine ⟨q + X ^ l.length * C (bit (r.msb ^^ b)), ?_⟩
      have hstep := regPoly_lfsrStep poly r b
      rw [lfsr_cons, List.length_cons, polyOf_cons]
      linear_combination hq + X ^ l.length * hstep
  intro r
  rw [modByMonic_eq_of_dvd_sub (generator_monic poly) (hdvd l r),
    (modByMonic_eq_self_iff (generator_monic poly)).mpr]
  rw [degree_generator]
  exact degree_regPoly_lt _

end Register

end FlashFloppyTestbed.Foundation
