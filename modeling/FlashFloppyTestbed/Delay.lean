/-
  Delay.lean --- the busy waits of `src/stm32f10x.c`: `delay_ticks` and the three
  functions that call it.

  `val 0` is the counter as it is read on entry, `val n` as the loop reads it for
  the `n`th time, and `T n` the time of that read.  A wait returns the number of its
  last sample, or `none` if it is still waiting after `fuel` samples.
-/
import FlashFloppyTestbed.Time
import Mathlib.Data.Nat.Find
import Mathlib.Order.Monotone.Basic

set_option autoImplicit false

namespace FlashFloppyTestbed

/-! ## The wait -/

/-- `stk_diff(x, y)`. -/
def stkDiff (x y : BitVec 32) : BitVec 32 := (x - y) &&& stkMask.setWidth 32

/-- The loop of `delay_ticks`, about to take sample `n`. -/
def delayLoop (val : Nat → BitVec 24) : Nat → Nat → BitVec 32 → BitVec 32 → Option Nat
  | 0, _, _, _ => none
  | fuel + 1, n, prev, ticks =>
    let cur := stkNow (val n)
    let diff := stkDiff prev cur
    if ticks ≤ diff then some n else delayLoop val fuel (n + 1) cur (ticks - diff)

/-- `delay_ticks`. -/
def delayTicks (fuel : Nat) (val : Nat → BitVec 24) (ticks : BitVec 32) : Option Nat :=
  delayLoop val fuel 1 (stkNow (val 0)) ticks

/-- `STK_MHZ`. -/
def stkMhz : BitVec 32 := 9

/-- `delay_ns`. -/
def delayNs (fuel : Nat) (val : Nat → BitVec 24) (ns : BitVec 32) : Option Nat :=
  delayTicks fuel val (ns * stkMhz / 1000)

/-- `delay_us`. -/
def delayUs (fuel : Nat) (val : Nat → BitVec 24) (us : BitVec 32) : Option Nat :=
  delayTicks fuel val (us * stkMhz)

/-- `delay_ms`. -/
def delayMs (fuel : Nat) (val : Nat → BitVec 24) (ms : BitVec 32) : Option Nat :=
  delayTicks fuel val (ms * 1000 * stkMhz)

/-! ## What a sample tells -/

/-- Counting down modulo 2^24. -/
theorem stkTick_iterate (v : BitVec 24) (n : Nat) : stkTick^[n] v = v - BitVec.ofNat 24 n := by
  induction n with
  | zero => simp
  | succ n ih =>
    rw [Function.iterate_succ_apply', ih, stkTick_eq]
    bv_omega

theorem toNat_stkDiff (x y : BitVec 32) : (stkDiff x y).toNat = (x - y).toNat % 2 ^ 24 := by
  rw [stkDiff, BitVec.toNat_and]
  exact Nat.and_two_pow_sub_one_eq_mod _ 24

/-- The masked difference of two values is the number of ticks in between, unless the
counter has gone all the way around. -/
theorem toNat_stkDiff_ticks (v : BitVec 24) {s t : Nat} (hle : s ≤ t) (hgap : t < s + 2 ^ 24) :
    (stkDiff (stkNow (stkTick^[s] v)) (stkNow (stkTick^[t] v))).toNat = t - s := by
  rw [toNat_stkDiff, stkNow, stkNow, stkTick_iterate, stkTick_iterate]
  bv_omega

/-! ## The wait is exact -/

section Wait

variable {v : BitVec 24} {T : Nat → Nat}

/-- Sample `n` is the first one behind sample `k` that comes at least `ticks` ticks after it. -/
def FirstAfter (T : Nat → Nat) (k ticks n : Nat) : Prop :=
  k < n ∧ ticks ≤ T n - T k ∧ ∀ m, k < m → m < n → T m - T k < ticks

/-- Sample `n` is the first one behind the entry that comes at least `ticks` ticks
after it. -/
def FirstSample (T : Nat → Nat) (ticks n : Nat) : Prop :=
  1 ≤ n ∧ ticks ≤ T n - T 0 ∧ ∀ m, 1 ≤ m → m < n → T m - T 0 < ticks

/-- The next sample is the first one if it is late enough ... -/
theorem firstAfter_of_le {k ticks n : Nat} (h : ticks ≤ T (k + 1) - T k) :
    FirstAfter T k ticks n ↔ n = k + 1 := by
  constructor
  · rintro ⟨hk, -, hfirst⟩
    by_contra hne
    exact absurd h (Nat.not_le.mpr (hfirst (k + 1) (by omega) (by omega)))
  · rintro rfl
    exact ⟨by omega, h, fun m hm hlt => by omega⟩

/-- ... and otherwise the time that has passed is taken off. -/
theorem firstAfter_of_lt (hmono : Monotone T) {k ticks n : Nat} (h : T (k + 1) - T k < ticks) :
    FirstAfter T k ticks n ↔ FirstAfter T (k + 1) (ticks - (T (k + 1) - T k)) n := by
  have hle : T k ≤ T (k + 1) := hmono k.le_succ
  have hlater : ∀ m, k + 1 < m → T m - T k = (T m - T (k + 1)) + (T (k + 1) - T k) := by
    intro m hm
    have := hmono hm.le
    omega
  constructor
  · rintro ⟨hk, hreached, hfirst⟩
    have hk' : k + 1 < n := by
      rcases Nat.eq_or_lt_of_le (show k + 1 ≤ n from hk) with heq | hk'
      · rw [← heq] at hreached
        omega
      · exact hk'
    rw [hlater n hk'] at hreached
    refine ⟨hk', by omega, fun m hm hlt => ?_⟩
    have := hfirst m (by omega) hlt
    rw [hlater m hm] at this
    omega
  · rintro ⟨hk, hreached, hfirst⟩
    refine ⟨by omega, by rw [hlater n hk]; omega, fun m hm hlt => ?_⟩
    rcases Nat.eq_or_lt_of_le (Nat.succ_le_of_lt hm) with rfl | hm'
    · exact h
    · have := hfirst m hm' hlt
      rw [hlater m hm']
      omega

/-- From sample `k` on, with `ticks` left at that sample, the loop ends with the first
sample that is `ticks` behind it. -/
theorem delayLoop_eq_some_iff (hmono : Monotone T) (hgap : ∀ n, T (n + 1) < T n + 2 ^ 24)
    {fuel k n : Nat} {ticks : BitVec 32} :
    delayLoop (fun n => stkTick^[T n] v) fuel (k + 1) (stkNow (stkTick^[T k] v)) ticks = some n ↔
      n ≤ k + fuel ∧ FirstAfter T k ticks.toNat n := by
  induction fuel generalizing k ticks with
  | zero =>
    simp only [delayLoop, reduceCtorEq, false_iff]
    rintro ⟨hn, hk, -⟩
    omega
  | succ fuel ih =>
    obtain ⟨diff, hdiff⟩ : ∃ d, d = stkDiff (stkNow (stkTick^[T k] v))
      (stkNow (stkTick^[T (k + 1)] v)) := ⟨_, rfl⟩
    have hval : diff.toNat = T (k + 1) - T k := by
      rw [hdiff]
      exact toNat_stkDiff_ticks v (hmono k.le_succ) (hgap k)
    rw [delayLoop, ← hdiff]
    by_cases hdone : ticks ≤ diff
    · have hreached : ticks.toNat ≤ T (k + 1) - T k := hval ▸ BitVec.le_def.mp hdone
      rw [if_pos hdone, Option.some_inj, firstAfter_of_le hreached]
      omega
    · have hbefore : T (k + 1) - T k < ticks.toNat :=
        hval ▸ Nat.not_le.mp fun h => hdone (BitVec.le_def.mpr h)
      have hleft : (ticks - diff).toNat = ticks.toNat - (T (k + 1) - T k) := by
        rw [BitVec.toNat_sub_of_le (BitVec.le_def.mpr (by omega)), hval]
      rw [if_neg hdone, ih, hleft, firstAfter_of_lt hmono hbefore,
        show k + 1 + fuel = k + (fuel + 1) by omega]

theorem delayTicks_eq_some_iff (hmono : Monotone T) (hgap : ∀ n, T (n + 1) < T n + 2 ^ 24)
    {fuel n : Nat} {ticks : BitVec 32} :
    delayTicks fuel (fun n => stkTick^[T n] v) ticks = some n ↔
      n ≤ fuel ∧ FirstSample T ticks.toNat n := by
  rw [delayTicks, delayLoop_eq_some_iff hmono hgap, Nat.zero_add]
  rfl

/-- If enough time passes at all, one of the samples is the first. -/
theorem exists_firstSample {ticks : Nat} (h : ∃ n, 1 ≤ n ∧ ticks ≤ T n - T 0) :
    ∃ n, FirstSample T ticks n := by
  classical
  refine ⟨Nat.find h, (Nat.find_spec h).1, (Nat.find_spec h).2, fun m hm hlt => ?_⟩
  have hnot := Nat.find_min h hlt
  omega

/-- The wait is over with the first sample that comes `ticks` ticks after the entry, and
if there is such a sample, then it is over. -/
theorem delayTicks_exact (hmono : Monotone T) (hgap : ∀ n, T (n + 1) < T n + 2 ^ 24)
    (ticks : BitVec 32) :
    (∀ fuel n, delayTicks fuel (fun n => stkTick^[T n] v) ticks = some n ↔
      n ≤ fuel ∧ FirstSample T ticks.toNat n) ∧
    ((∃ n, 1 ≤ n ∧ ticks.toNat ≤ T n - T 0) → ∃ n, FirstSample T ticks.toNat n ∧
      ∀ fuel, n ≤ fuel → delayTicks fuel (fun n => stkTick^[T n] v) ticks = some n) := by
  refine ⟨fun fuel n => delayTicks_eq_some_iff hmono hgap, fun h => ?_⟩
  obtain ⟨n, hn⟩ := exists_firstSample h
  exact ⟨n, hn, fun fuel hfuel => (delayTicks_eq_some_iff hmono hgap).mpr ⟨hfuel, hn⟩⟩

/-- Three turns of the counter and a bit, sampled every 10 million ticks. -/
theorem delayTicks_exact_turns :
    (Monotone fun n => 10000000 * n) ∧ (∀ n, 10000000 * (n + 1) < 10000000 * n + 2 ^ 24) ∧
      delayTicks 9 (fun n => stkTick^[10000000 * n] 5) 0x3000001 = some 6 := by
  have hmono : Monotone fun n => 10000000 * n := fun m n h => Nat.mul_le_mul_left _ h
  have hgap : ∀ n, 10000000 * (n + 1) < 10000000 * n + 2 ^ 24 := fun n => by omega
  refine ⟨hmono, hgap, ((delayTicks_exact hmono hgap 0x3000001).1 9 6).mpr ⟨by decide, ?_⟩⟩
  refine ⟨by decide, by decide, fun m _ hm => ?_⟩
  show 10000000 * m - 10000000 * 0 < 0x3000001
  omega

/-- A millisecond is 9000 ticks, up to about eight minutes. -/
theorem delayMs_eq_some_iff (hmono : Monotone T) (hgap : ∀ n, T (n + 1) < T n + 2 ^ 24)
    {fuel n : Nat} {ms : BitVec 32} (hms : ms.toNat * 9000 < 2 ^ 32) :
    delayMs fuel (fun n => stkTick^[T n] v) ms = some n ↔
      n ≤ fuel ∧ FirstSample T (ms.toNat * 9000) n := by
  have hticks : (ms * 1000 * stkMhz).toNat = ms.toNat * 9000 := by
    rw [stkMhz]
    bv_omega
  rw [delayMs, delayTicks_eq_some_iff hmono hgap, hticks]

/-- A microsecond is 9 ticks. -/
theorem delayUs_eq_some_iff (hmono : Monotone T) (hgap : ∀ n, T (n + 1) < T n + 2 ^ 24)
    {fuel n : Nat} {us : BitVec 32} (hus : us.toNat * 9 < 2 ^ 32) :
    delayUs fuel (fun n => stkTick^[T n] v) us = some n ↔
      n ≤ fuel ∧ FirstSample T (us.toNat * 9) n := by
  have hticks : (us * stkMhz).toNat = us.toNat * 9 := by
    rw [stkMhz]
    bv_omega
  rw [delayUs, delayTicks_eq_some_iff hmono hgap, hticks]

/-- A nanosecond count is rounded down to whole ticks. -/
theorem delayNs_eq_some_iff (hmono : Monotone T) (hgap : ∀ n, T (n + 1) < T n + 2 ^ 24)
    {fuel n : Nat} {ns : BitVec 32} (hns : ns.toNat * 9 < 2 ^ 32) :
    delayNs fuel (fun n => stkTick^[T n] v) ns = some n ↔
      n ≤ fuel ∧ FirstSample T (ns.toNat * 9 / 1000) n := by
  have hprod : (ns * 9).toNat = ns.toNat * 9 := by bv_omega
  have hticks : (ns * stkMhz / 1000).toNat = ns.toNat * 9 / 1000 := by
    rw [stkMhz, BitVec.toNat_udiv, hprod]
    rfl
  rw [delayNs, delayTicks_eq_some_iff hmono hgap, hticks]

end Wait

end FlashFloppyTestbed
