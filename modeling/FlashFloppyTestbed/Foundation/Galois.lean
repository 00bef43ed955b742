/-
  Foundation/Galois.lean --- registers that shift right and add a polynomial when a
  one drops out.

  The registers that the top bit alone goes through first are the powers of two,
  downwards, so that every register is a sum of those (`combine_top`).  A step
  keeps sums; hence `combine` of what the top bit becomes in `m` and in `n` steps
  is what it becomes in `m + n` (`combine_iterate`), and `iterTop` gets there by
  doubling.  A period is found from its prime factors (`minimalPeriod_of_prime`),
  and one that is as long as it can be goes through every register but zero
  (`exists_iterate_eq`).

  Nothing in this file is about a particular polynomial or width.
-/
import Mathlib.Data.BitVec
import Mathlib.Data.Nat.Prime.Basic
import Mathlib.Dynamics.PeriodicPts.Lemmas
import Mathlib.Order.Interval.Finset.Nat

set_option autoImplicit false

namespace FlashFloppyTestbed.Foundation

/-! ## Periods -/

section Period

variable {α : Type} {f : α → α} {x : α} {n : Nat}

/-- A period that cannot be divided by a prime is minimal. -/
theorem minimalPeriod_of_prime (hx : f^[n] x = x)
    (hprime : ∀ p, p.Prime → p ∣ n → f^[n / p] x ≠ x) : Function.minimalPeriod f x = n := by
  have hper : Function.IsPeriodicPt f n x := hx
  obtain ⟨a, ha⟩ := hper.minimalPeriod_dvd
  rcases eq_or_ne a 1 with rfl | hne
  · rw [ha, Nat.mul_one]
  · obtain ⟨p, hp, b, rfl⟩ := Nat.exists_prime_and_dvd hne
    have hquot : n / p = Function.minimalPeriod f x * b := by
      rw [ha, Nat.mul_left_comm, Nat.mul_div_cancel_left _ hp.pos]
    refine absurd ?_ (hprime p hp ⟨Function.minimalPeriod f x * b, by rw [ha, Nat.mul_left_comm]⟩)
    rw [hquot]
    exact (Function.isPeriodicPt_minimalPeriod f x).mul_const b

end Period

section Galois

variable {w : Nat} (poly : BitVec w)

/-! ## A step -/

/-- One step. -/
def galoisStep (s : BitVec w) : BitVec w :=
  if s.getLsbD 0 then (s >>> 1) ^^^ poly else s >>> 1

theorem galoisStep_xor (s t : BitVec w) :
    galoisStep poly (s ^^^ t) = galoisStep poly s ^^^ galoisStep poly t := by
  rw [galoisStep, galoisStep, galoisStep, BitVec.getLsbD_xor, BitVec.ushiftRight_xor_distrib]
  cases s.getLsbD 0 <;> cases t.getLsbD 0
  · rfl
  · simp [BitVec.xor_assoc]
  · simp [BitVec.xor_assoc, BitVec.xor_comm poly]
  · ext i hi
    simp only [Bool.xor_self, Bool.false_eq_true, if_false, if_true, BitVec.getElem_xor]
    cases poly[i] <;> simp

@[simp] theorem galoisStep_zero : galoisStep poly 0 = 0 := by
  have hsum := galoisStep_xor poly 0 0
  rw [BitVec.xor_self] at hsum
  exact hsum.trans BitVec.xor_self

variable {poly}

/-- A polynomial with a top bit: no other register becomes zero. -/
theorem galoisStep_eq_zero (hpoly : poly.msb = true) {s : BitVec w} (h : galoisStep poly s = 0) :
    s = 0 := by
  rw [galoisStep] at h
  split at h
  · rename_i hlow
    have hmsb := congrArg BitVec.msb h
    rw [BitVec.msb_xor, BitVec.msb_ushiftRight, hpoly] at hmsb
    simp at hmsb
  · rename_i hlow
    apply BitVec.eq_of_getLsbD_eq
    intro i hi
    cases i with
    | zero => simpa using hlow
    | succ i =>
      have hbit := congrArg (fun t => t.getLsbD i) h
      simpa [Nat.add_comm] using hbit

/-! ## Many steps -/

/-- The sum of `a` and of what it becomes in one step, two steps, ..., as far as the bits
of `b` say, top bit first. -/
def combine (poly : BitVec w) : Nat → BitVec w → BitVec w → BitVec w
  | 0, _, _ => 0
  | k + 1, a, b => (if b.msb then a else 0) ^^^ combine poly k (galoisStep poly a) (b <<< 1)

theorem combine_step (k : Nat) (a b : BitVec w) :
    combine poly k (galoisStep poly a) b = galoisStep poly (combine poly k a b) := by
  induction k generalizing a b with
  | zero => exact (galoisStep_zero poly).symm
  | succ k ih =>
    rw [combine, combine, ih, galoisStep_xor]
    split
    · rfl
    · rw [galoisStep_zero]

theorem combine_iterate_left (n k : Nat) (a b : BitVec w) :
    combine poly k ((galoisStep poly)^[n] a) b = (galoisStep poly)^[n] (combine poly k a b) := by
  induction n with
  | zero => rfl
  | succ n ih => rw [Function.iterate_succ_apply', Function.iterate_succ_apply', combine_step, ih]

/-- A power of two but for the last is halved. -/
theorem galoisStep_twoPow {k : Nat} (hk : k + 1 < w) :
    galoisStep poly (BitVec.twoPow w (k + 1)) = BitVec.twoPow w k := by
  have hlow : (BitVec.twoPow w (k + 1)).getLsbD 0 = false := by simp [BitVec.getLsbD_twoPow]
  rw [galoisStep, hlow, if_neg Bool.false_ne_true]
  apply BitVec.eq_of_getLsbD_eq
  intro i hi
  rw [BitVec.getLsbD_ushiftRight, BitVec.getLsbD_twoPow, BitVec.getLsbD_twoPow]
  simp only [show k + 1 = 1 + i ↔ k = i by omega, hk, show k < w by omega]

/-- A bit of a register, as a power of two. -/
theorem getLsbD_pick (b : BitVec w) {k : Nat} (hk : k < w) (j : Nat) :
    ((if (b <<< (w - (k + 1))).msb then BitVec.twoPow w k else 0).getLsbD j : Bool) =
      (b.getLsbD k && decide (k = j)) := by
  have hmsb : (b <<< (w - (k + 1))).msb = b.getLsbD k := by
    rw [BitVec.msb_shiftLeft, BitVec.getMsbD_eq_getLsbD, show w - 1 - (w - (k + 1)) = k by omega]
    simp [show w - (k + 1) < w by omega]
  rw [hmsb]
  cases b.getLsbD k
  · simp
  · simp [BitVec.getLsbD_twoPow, hk]

/-- The lowest bits of a register, as a sum of powers of two. -/
theorem getLsbD_combine_twoPow (b : BitVec w) {k : Nat} (hk : k < w) (j : Nat) :
    (combine poly (k + 1) (BitVec.twoPow w k) (b <<< (w - (k + 1)))).getLsbD j =
      (decide (j ≤ k) && b.getLsbD j) := by
  induction k with
  | zero =>
    rw [combine, combine, BitVec.getLsbD_xor, getLsbD_pick b hk]
    rcases Nat.eq_zero_or_pos j with rfl | hj
    · simp
    · simp [show ¬ j ≤ 0 by omega, show ¬ 0 = j by omega]
  | succ k ih =>
    have hshift : (b <<< (w - (k + 1 + 1))) <<< 1 = b <<< (w - (k + 1)) := by
      rw [← BitVec.shiftLeft_add]
      congr 1
      omega
    rw [combine, hshift, galoisStep_twoPow hk, BitVec.getLsbD_xor, getLsbD_pick b hk,
      ih (by omega)]
    rcases Nat.lt_trichotomy j (k + 1) with hlt | rfl | hgt
    · simp [show j ≤ k by omega, show j ≤ k + 1 by omega, show ¬ k + 1 = j by omega]
    · simp
    · simp [show ¬ j ≤ k by omega, show ¬ j ≤ k + 1 by omega, show ¬ k + 1 = j by omega]

/-- Every register is a sum of powers of two. -/
theorem combine_top (hw : 0 < w) (b : BitVec w) :
    combine poly w (BitVec.twoPow w (w - 1)) b = b := by
  apply BitVec.eq_of_getLsbD_eq
  intro j hj
  have hbits := @getLsbD_combine_twoPow w poly b (w - 1) (by omega) j
  rw [Nat.sub_add_cancel hw, Nat.sub_self, BitVec.shiftLeft_zero] at hbits
  rw [hbits, decide_eq_true (by omega), Bool.true_and]

/-! ## Jumping ahead -/

/-- The register with the top bit alone. -/
def topBit (w : Nat) : BitVec w := BitVec.twoPow w (w - 1)

/-- What the top bit becomes in `m` and in `n` steps tells what it becomes in `m + n`. -/
theorem combine_iterate (hw : 0 < w) (m n : Nat) :
    combine poly w ((galoisStep poly)^[m] (topBit w)) ((galoisStep poly)^[n] (topBit w)) =
      (galoisStep poly)^[m + n] (topBit w) := by
  rw [combine_iterate_left, topBit, combine_top hw, Function.iterate_add_apply]

/-- What the top bit becomes in `n` steps, for an `n` of `k` bits. -/
def iterTop (poly : BitVec w) : Nat → Nat → BitVec w
  | 0, _ => topBit w
  | k + 1, n =>
    let half := iterTop poly k (n / 2)
    let twice := combine poly w half half
    if n % 2 = 1 then galoisStep poly twice else twice

theorem iterTop_eq (hw : 0 < w) {k n : Nat} (hn : n < 2 ^ k) :
    iterTop poly k n = (galoisStep poly)^[n] (topBit w) := by
  induction k generalizing n with
  | zero =>
    obtain rfl : n = 0 := by simpa using hn
    rfl
  | succ k ih =>
    rw [iterTop, ih (show n / 2 < 2 ^ k by omega), combine_iterate hw]
    split
    · rename_i hodd
      rw [← Function.iterate_succ_apply' (galoisStep poly), show (n / 2 + n / 2).succ = n by omega]
    · rw [show n / 2 + n / 2 = n by omega]

/-! ## The longest period -/

section Full

variable (hpoly : poly.msb = true)
include hpoly

theorem galoisStep_iterate_ne_zero {s : BitVec w} (hs : s ≠ 0) (n : Nat) :
    (galoisStep poly)^[n] s ≠ 0 := by
  induction n with
  | zero => exact hs
  | succ n ih =>
    rw [Function.iterate_succ_apply']
    exact fun h => ih (galoisStep_eq_zero hpoly h)

variable {s t : BitVec w} (hfull : Function.minimalPeriod (galoisStep poly) s = 2 ^ w - 1)
include hfull

/-- A register whose period is the longest possible becomes every other. -/
theorem exists_iterate_eq (hs : s ≠ 0) (ht : t ≠ 0) :
    ∃ n, n < 2 ^ w - 1 ∧ (galoisStep poly)^[n] s = t := by
  obtain ⟨value, hvalue⟩ : ∃ v : Nat → Nat, v = fun n => ((galoisStep poly)^[n] s).toNat :=
    ⟨_, rfl⟩
  have hmaps : Set.MapsTo value (Finset.range (2 ^ w - 1)) (Finset.Ico 1 (2 ^ w)) := by
    intro n _
    have hne := galoisStep_iterate_ne_zero hpoly hs n
    have hpos : ((galoisStep poly)^[n] s).toNat ≠ 0 := fun h => hne (BitVec.eq_of_toNat_eq h)
    rw [hvalue, Finset.mem_coe, Finset.mem_Ico]
    exact ⟨Nat.one_le_iff_ne_zero.mpr hpos, BitVec.isLt _⟩
  have hinj : Set.InjOn value (Finset.range (2 ^ w - 1)) := by
    intro m hm n hn h
    rw [Finset.mem_coe, Finset.mem_range, ← hfull] at hm hn
    rw [hvalue] at h
    exact (Function.iterate_eq_iterate_iff_of_lt_minimalPeriod hm hn).mp
      (BitVec.eq_of_toNat_eq h)
  have hcard : (Finset.Ico 1 (2 ^ w)).card ≤ (Finset.range (2 ^ w - 1)).card := by
    rw [Nat.card_Ico, Finset.card_range]
  have hmem : t.toNat ∈ (Finset.Ico 1 (2 ^ w) : Set Nat) := by
    rw [Finset.mem_coe, Finset.mem_Ico]
    exact ⟨Nat.one_le_iff_ne_zero.mpr fun h => ht (BitVec.eq_of_toNat_eq h), BitVec.isLt _⟩
  obtain ⟨n, hn, heq⟩ := Finset.surjOn_of_injOn_of_card_le value hmaps hinj hcard hmem
  rw [hvalue] at heq
  exact ⟨n, by simpa using hn, BitVec.eq_of_toNat_eq heq⟩

/-- One register with the longest period: all have it, but zero. -/
theorem minimalPeriod_eq_of_full (hs : s ≠ 0) (ht : t ≠ 0) :
    Function.minimalPeriod (galoisStep poly) t = 2 ^ w - 1 := by
  obtain ⟨n, hn, rfl⟩ := exists_iterate_eq hpoly hfull hs ht
  have hper : s ∈ Function.periodicPts (galoisStep poly) := by
    rw [← Function.minimalPeriod_pos_iff_mem_periodicPts, hfull]
    omega
  rw [Function.minimalPeriod_apply_iterate hper, hfull]

end Full

end Galois

end FlashFloppyTestbed.Foundation
