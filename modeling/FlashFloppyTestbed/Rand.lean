/-
  Rand.lean --- `rand` of `src/util.c`, a 32-bit Galois register.

  Its polynomial is primitive: `2 ^ 32 - 1` steps bring the top bit back to where it
  was, and no fewer do, since the quotients of `2 ^ 32 - 1` by its five prime
  factors do not (`minimalPeriod_topBit`).
-/
import FlashFloppyTestbed.Foundation.Galois
import Mathlib.Tactic.NormNum.Prime

set_option autoImplicit false

namespace FlashFloppyTestbed

open FlashFloppyTestbed.Foundation

/-- `rand`, from the static `seed` to its new value, which is also the result. -/
def rand (seed : BitVec 32) : BitVec 32 :=
  if seed &&& 1 ≠ 0 then (seed >>> 1) ^^^ 0x80000062 else seed >>> 1

/-- The result of call `i`, counted from 0. -/
def randValue (i : Nat) : BitVec 32 := rand^[i + 1] 0x12345678

/-- The feedback constant. -/
def randPoly : BitVec 32 := 0x80000062

theorem rand_eq_galoisStep : rand = galoisStep randPoly := by
  funext s
  have hbit : s &&& 1 ≠ 0 ↔ s.getLsbD 0 = true := by
    rw [show (1 : BitVec 32) = BitVec.twoPow 32 0 from rfl, BitVec.and_twoPow]
    cases s.getLsbD 0 <;> decide
  rw [rand, galoisStep, randPoly]
  simp only [hbit]

theorem msb_randPoly : randPoly.msb = true := by decide

/-! ## The period -/

/-- The prime factors of the longest period. -/
def periodPrimes : List Nat := [3, 5, 17, 257, 65537]

theorem mem_periodPrimes {p : Nat} (hp : p.Prime) (hdvd : p ∣ 2 ^ 32 - 1) : p ∈ periodPrimes := by
  have hprod : (2 ^ 32 - 1 : Nat) = 3 * (5 * (17 * (257 * 65537))) := by decide
  rw [hprod, hp.dvd_mul, hp.dvd_mul, hp.dvd_mul, hp.dvd_mul,
    Nat.prime_dvd_prime_iff_eq hp (by norm_num), Nat.prime_dvd_prime_iff_eq hp (by norm_num),
    Nat.prime_dvd_prime_iff_eq hp (by norm_num), Nat.prime_dvd_prime_iff_eq hp (by norm_num),
    Nat.prime_dvd_prime_iff_eq hp (by norm_num)] at hdvd
  simpa only [periodPrimes, List.mem_cons, List.not_mem_nil, or_false] using hdvd

/-- The doublings, carried out: `x` to the `2 ^ 32 - 1` is one ... -/
theorem iterTop_period : iterTop randPoly 32 (2 ^ 32 - 1) = topBit 32 := by decide +kernel

/-- ... and no quotient by a prime factor will do. -/
theorem iterTop_quotient :
    ∀ p ∈ periodPrimes, iterTop randPoly 32 ((2 ^ 32 - 1) / p) ≠ topBit 32 := by decide +kernel

theorem minimalPeriod_topBit :
    Function.minimalPeriod (galoisStep randPoly) (topBit 32) = 2 ^ 32 - 1 := by
  have hiter : ∀ n, n < 2 ^ 32 → (galoisStep randPoly)^[n] (topBit 32) = iterTop randPoly 32 n :=
    fun n hn => (iterTop_eq (by decide) hn).symm
  apply minimalPeriod_of_prime
  · rw [hiter _ (by decide), iterTop_period]
  · intro p hp hdvd
    have hlt : (2 ^ 32 - 1) / p < 2 ^ 32 := (Nat.div_le_self _ p).trans_lt (by decide)
    rw [hiter _ hlt]
    exact iterTop_quotient p (mem_periodPrimes hp hdvd)

/-- Every register but zero has the longest period. -/
theorem minimalPeriod_rand {s : BitVec 32} (hs : s ≠ 0) :
    Function.minimalPeriod rand s = 2 ^ 32 - 1 := by
  rw [rand_eq_galoisStep]
  exact minimalPeriod_eq_of_full msb_randPoly minimalPeriod_topBit (by decide) hs

theorem randValue_ne_zero (i : Nat) : randValue i ≠ 0 := by
  rw [randValue, rand_eq_galoisStep]
  exact galoisStep_iterate_ne_zero msb_randPoly (by decide) _

theorem randValue_add (i j : Nat) : randValue (i + j) = rand^[j] (randValue i) := by
  rw [randValue, randValue, ← Function.iterate_add_apply]
  congr 1
  omega

/-- The values are not zero, differ within a period, and repeat after it, so that each
period has every value but zero once. -/
theorem rand_full_period :
    (∀ i, randValue i ≠ 0) ∧
      (∀ i j, i < j → j - i < 2 ^ 32 - 1 → randValue i ≠ randValue j) ∧
      (∀ i, randValue (i + (2 ^ 32 - 1)) = randValue i) ∧
      ∀ i v, v ≠ 0 → ∃! j, i ≤ j ∧ j < i + (2 ^ 32 - 1) ∧ randValue j = v := by
  have hdiffer : ∀ i j, i < j → j - i < 2 ^ 32 - 1 → randValue i ≠ randValue j := by
    intro i j hij hlt heq
    have hper : Function.IsPeriodicPt rand (j - i) (randValue i) := by
      rw [Function.IsPeriodicPt, Function.IsFixedPt, ← randValue_add, Nat.add_sub_cancel' hij.le,
        heq]
    have hle := hper.minimalPeriod_le (by omega)
    rw [minimalPeriod_rand (randValue_ne_zero i)] at hle
    omega
  refine ⟨randValue_ne_zero, hdiffer, fun i => ?_, fun i v hv => ?_⟩
  · rw [randValue_add, ← minimalPeriod_rand (randValue_ne_zero i)]
    exact Function.iterate_minimalPeriod
  · obtain ⟨n, hn, heq⟩ : ∃ n, n < 2 ^ 32 - 1 ∧ rand^[n] (randValue i) = v := by
      have hfull := minimalPeriod_rand (randValue_ne_zero i)
      rw [rand_eq_galoisStep] at hfull ⊢
      exact exists_iterate_eq msb_randPoly hfull (randValue_ne_zero i) hv
    rw [← randValue_add] at heq
    refine ⟨i + n, ⟨by omega, by omega, heq⟩, ?_⟩
    rintro j ⟨hij, hj, hval⟩
    rcases Nat.lt_trichotomy j (i + n) with hlt | rfl | hgt
    · exact absurd (hval.trans heq.symm) (hdiffer j (i + n) hlt (by omega))
    · rfl
    · exact absurd (heq.trans hval.symm) (hdiffer (i + n) j hgt (by omega))

end FlashFloppyTestbed
