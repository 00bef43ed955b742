/-
  QsortStack.lean --- the stack that `qsort_p` of `src/util.c` takes.

  `__qsort_p` calls itself for the smaller of the two parts only, and goes around its
  loop for the other one.  The part that a call is made for is then less than half as
  long, so `n` nested calls are enough for less than `2 ^ (n + 1)` elements
  (`qsortP_stack`), on whatever array.
-/
import FlashFloppyTestbed.Qsort

set_option autoImplicit false

namespace FlashFloppyTestbed

open FlashFloppyTestbed.Foundation

section Stack

variable {α : Type} (compar : α → α → Int) (nr : Nat)

/-- The body of the loop of `__qsort_p`, up to the call: the array, and the place `i` of
the pivot. -/
def qsortPTurn (bound : Nat) (a : Int → α) (l r : Int) : Option ((Int → α) × Int) := do
  let m ← middle l r
  let pivot ← readAt nr a m
  let x ← readAt nr a r
  let a ← writeAt nr a m x
  let a ← writeAt nr a r pivot
  let p ← partition compar nr pivot bound bound a (l - 1) r
  let x ← readAt nr p.1 p.2
  let a ← writeAt nr p.1 r x
  let a ← writeAt nr a p.2 pivot
  some (a, p.2)

/-- `__qsort_p` on a stack that has room for `frames` calls inside of this one; `none` is
also a call for which there is no room.  Every turn of the loop makes one. -/
def qsortPFrames (bound : Nat) : Nat → Nat → (Int → α) → Int → Int → Option (Int → α)
  | _, 0, _, _, _ => none
  | 0, _ + 1, a, l, r => if l < r then none else some a
  | frames + 1, fuel + 1, a, l, r =>
    if l < r then do
      let p ← qsortPTurn compar nr bound a l r
      let i := p.2
      if i - l < r - i then do
        let a ← qsortPFrames bound frames fuel p.1 l (i - 1)
        qsortPFrames bound (frames + 1) fuel a (i + 1) r
      else do
        let a ← qsortPFrames bound frames fuel p.1 (i + 1) r
        qsortPFrames bound (frames + 1) fuel a l (i - 1)
    else some a

variable {compar nr} {bound fuel frames : Nat} {a : Int → α} {l r : Int}

theorem qsortPRange_succ (hlr : l < r) :
    qsortPRange compar nr bound (fuel + 1) a l r = (qsortPTurn compar nr bound a l r).bind fun p =>
      if p.2 - l < r - p.2 then
        (qsortPRange compar nr bound fuel p.1 l (p.2 - 1)).bind fun a =>
          qsortPRange compar nr bound fuel a (p.2 + 1) r
      else
        (qsortPRange compar nr bound fuel p.1 (p.2 + 1) r).bind fun a =>
          qsortPRange compar nr bound fuel a l (p.2 - 1) := by
  rw [qsortPRange, if_pos hlr, qsortPTurn]
  simp only [Option.bind_eq_bind, Option.bind_assoc, Option.bind_some]

/-- The pivot ends up within its part. -/
theorem qsortPTurn_spec (hcmp : TotalPreorder compar) (hl : 0 ≤ l) (hlr : l < r) (hr : r < nr)
    (hnr : nr < 2 ^ 30) (hbound : r - l + 2 ≤ bound) :
    ∃ a' i, qsortPTurn compar nr bound a l r = some (a', i) ∧ l ≤ i ∧ i ≤ r := by
  obtain ⟨m, a', i, hm, hm0, hmr, hpart, hlast, hli, hir, -, -⟩ :=
    partition_middle (a := a) hcmp hl hlr hr hnr hbound
  refine ⟨a' ∘ Equiv.swap r i, i, ?_, hli, hir⟩
  rw [qsortPTurn]
  simp only [hm, readAt_eq a hm0 hmr, readAt_eq a (show 0 ≤ r by omega) hr,
    writeAt_eq a (a r) hm0 hmr, writeAt_eq _ (a m) (show 0 ≤ r by omega) hr,
    update_update_eq_swap, hpart, Option.bind_eq_bind, Option.bind_some,
    readAt_eq a' (show 0 ≤ i by omega) (show i < nr by omega),
    writeAt_eq a' (a' i) (show 0 ≤ r by omega) hr]
  rw [← hlast]
  simp only [writeAt_eq _ (a' r) (show 0 ≤ i by omega) (show i < nr by omega),
    update_update_eq_swap, Option.bind_some]

/-- With room for as many calls as the length of the part has halves, the stack is not
noticed. -/
theorem qsortPFrames_eq (hcmp : TotalPreorder compar) (hnr : nr < 2 ^ 30) (hbound : nr + 1 ≤ bound)
    (hl : 0 ≤ l) (hr : r < nr) (hframes : r - l + 1 < 2 ^ (frames + 1)) :
    qsortPFrames compar nr bound frames fuel a l r = qsortPRange compar nr bound fuel a l r := by
  induction fuel generalizing frames a l r with
  | zero => rw [qsortPFrames, qsortPRange]
  | succ fuel ih =>
    by_cases hlr : l < r
    · obtain ⟨frames, rfl⟩ : ∃ n, frames = n + 1 := by
        cases frames with
        | zero => omega
        | succ n => exact ⟨n, rfl⟩
      obtain ⟨a', i, hturn, hli, hir⟩ := qsortPTurn_spec (a := a) hcmp hl hlr hr hnr
        (show r - l + 2 ≤ (bound : Int) by omega)
      rw [Int.pow_succ] at hframes
      have hlong : ∀ s : Int, s ≤ r - l → s + 1 < 2 ^ (frames + 1 + 1) := by
        intro s hs
        rw [Int.pow_succ]
        omega
      rw [qsortPRange_succ hlr, qsortPFrames, if_pos hlr, hturn]
      simp only [Option.bind_eq_bind, Option.bind_some]
      split
      · rw [ih hl (by omega) (show i - 1 - l + 1 < 2 ^ (frames + 1) by omega)]
        exact congrArg _ (funext fun a =>
          ih (by omega) hr (hlong (r - (i + 1)) (by omega)))
      · rw [ih (by omega) hr (show r - (i + 1) + 1 < 2 ^ (frames + 1) by omega)]
        exact congrArg _ (funext fun a =>
          ih hl (by omega) (hlong (i - 1 - l) (by omega)))
    · rw [qsortPRange, if_neg hlr]
      cases frames with
      | zero => rw [qsortPFrames, if_neg hlr]
      | succ n => rw [qsortPFrames, if_neg hlr]

/-- **The stack of `qsort_p`.**  On a stack with room for `frames` nested calls it sorts any
array of less than `2 ^ (frames + 1)` elements, to the same result as on a stack without a
bound. -/
theorem qsortP_stack (hnr : nr < 2 ^ 30) (hcmp : TotalPreorder compar)
    (hframes : nr < 2 ^ (frames + 1)) (a : Int → α) (hfuel : nr < fuel) :
    ∃ a', qsortPFrames compar nr fuel frames fuel a 0 (BitVec.ofNat 32 nr - 1).toInt = some a' ∧
      qsortP compar nr fuel a = some a' ∧
      ∀ i j : Nat, i ≤ j → j < nr → compar (a' i) (a' j) ≤ 0 := by
  have hlast : (BitVec.ofNat 32 nr - 1).toInt = nr - 1 := by
    rw [BitVec.toInt_eq_toNat_cond]
    split <;> bv_omega
  have hroom : (nr - 1 - 0 + 1 : Int) < 2 ^ (frames + 1) := by
    rw [Int.sub_zero, Int.sub_add_cancel]
    exact_mod_cast hframes
  obtain ⟨a', hrun, -, hsorted⟩ := qsortPRange_spec (a := a) hcmp le_rfl
    (show (nr - 1 : Int) < nr by omega) hnr (show nr + 1 ≤ fuel by omega)
    (show (nr - 1 - 0 + 1 : Int).toNat < fuel by omega)
  refine ⟨a', ?_, ?_, fun i j hij hj => hsorted i j (by omega) (by omega) (by omega)⟩
  · rw [hlast, qsortPFrames_eq hcmp hnr (by omega) le_rfl (by omega) hroom, hrun]
  · rw [qsortP, hlast, hrun]

end Stack

/-- Five numbers take two nested calls. -/
theorem qsortP_stack_five :
    ∃ a', qsortPFrames compareDigit 5 6 2 6 (fun k => [31, 52, 21, 90, 11].getD k.toNat 0) 0
      (BitVec.ofNat 32 5 - 1).toInt = some a' ∧ compareDigit (a' 0) (a' 4) ≤ 0 := by
  obtain ⟨a', hrun, -, hsorted⟩ := qsortP_stack (show 5 < 2 ^ 30 by decide)
    totalPreorder_compareDigit (show 5 < 2 ^ (2 + 1) by decide)
    (fun k => [31, 52, 21, 90, 11].getD k.toNat 0) (show 5 < 6 by decide)
  exact ⟨a', hrun, hsorted 0 4 (by decide) (by decide)⟩

end FlashFloppyTestbed
