/-
  Qsort.lean --- `qsort_p` of `src/util.c`.

  The array of `nr` pointers is a function of the index.  An access outside of
  `a[0..nr)` gives `none`, as do a sum of indices that overflows an `int` and a loop
  or a recursion that has used up its `fuel`, so that `qsortP_sorts` is also about
  memory safety and termination.

  The pivot is parked at `a[r]` and stops the scan to the right; the scan to the left
  looks before it checks its bound, which is why `PartInv` has `l < j`.
-/
import FlashFloppyTestbed.Foundation.Rearrange

set_option autoImplicit false

namespace FlashFloppyTestbed

open FlashFloppyTestbed.Foundation

section Qsort

variable {α : Type} (compar : α → α → Int) (nr : Nat)

/-! ## The code -/

/-- `a[k]`. -/
def readAt (a : Int → α) (k : Int) : Option α := if 0 ≤ k ∧ k < nr then some (a k) else none

/-- `a[k] = x`. -/
def writeAt (a : Int → α) (k : Int) (x : α) : Option (Int → α) :=
  if 0 ≤ k ∧ k < nr then some (Function.update a k x) else none

/-- `while (compar(a[++i], pivot) < 0) continue;` -/
def scanUp (a : Int → α) (pivot : α) : Nat → Int → Option Int
  | 0, _ => none
  | fuel + 1, i => do
    let i := i + 1
    let x ← readAt nr a i
    if compar x pivot < 0 then scanUp a pivot fuel i else some i

/-- `while ((compar(a[--j], pivot) >= 0) && (i < j)) continue;` -/
def scanDown (a : Int → α) (pivot : α) (i : Int) : Nat → Int → Option Int
  | 0, _ => none
  | fuel + 1, j => do
    let j := j - 1
    let x ← readAt nr a j
    if compar x pivot ≥ 0 ∧ i < j then scanDown a pivot i fuel j else some j

/-- `while (i < j) { ... }`: the array, and `i`. -/
def partition (pivot : α) (bound : Nat) : Nat → (Int → α) → Int → Int → Option ((Int → α) × Int)
  | 0, _, _, _ => none
  | fuel + 1, a, i, j =>
    if i < j then do
      let i ← scanUp compar nr a pivot bound i
      let j ← scanDown compar nr a pivot i bound j
      if i < j then
        let t ← readAt nr a i
        let x ← readAt nr a j
        let a ← writeAt nr a i x
        let a ← writeAt nr a j t
        partition pivot bound fuel a i j
      else
        partition pivot bound fuel a i j
    else some (a, i)

/-- `(l + r) / 2`. -/
def middle (l r : Int) : Option Int := if l + r < 2 ^ 31 then some ((l + r).tdiv 2) else none

/-- `__qsort_p`; `bound` is the fuel of the loops inside. -/
def qsortPRange (bound : Nat) : Nat → (Int → α) → Int → Int → Option (Int → α)
  | 0, _, _, _ => none
  | fuel + 1, a, l, r =>
    if l < r then do
      let m ← middle l r
      let pivot ← readAt nr a m
      let x ← readAt nr a r
      let a ← writeAt nr a m x
      let a ← writeAt nr a r pivot
      let p ← partition compar nr pivot bound bound a (l - 1) r
      let i := p.2
      let x ← readAt nr p.1 i
      let a ← writeAt nr p.1 r x
      let a ← writeAt nr a i pivot
      if i - l < r - i then do
        let a ← qsortPRange bound fuel a l (i - 1)
        qsortPRange bound fuel a (i + 1) r
      else do
        let a ← qsortPRange bound fuel a (i + 1) r
        qsortPRange bound fuel a l (i - 1)
    else some a

/-- `qsort_p`: `nr - 1` is computed without a sign and passed as an `int`. -/
def qsortP (fuel : Nat) (a : Int → α) : Option (Int → α) :=
  qsortPRange compar nr fuel fuel a 0 (BitVec.ofNat 32 nr - 1).toInt

/-! ## The comparison -/

/-- A comparison function that orders all elements, some of which it may hold to be equal. -/
structure TotalPreorder : Prop where
  refl : ∀ x, compar x x = 0
  trans : ∀ x y z, compar x y ≤ 0 → compar y z ≤ 0 → compar x z ≤ 0
  antisymm : ∀ x y, (compar x y).sign = -(compar y x).sign

variable {compar}

theorem TotalPreorder.le_of_not_lt (h : TotalPreorder compar) {x y : α} (hxy : ¬ compar x y < 0) :
    compar y x ≤ 0 := by
  have hsign := h.antisymm x y
  rcases lt_trichotomy (compar y x) 0 with hlt | heq | hgt
  · exact hlt.le
  · exact heq.le
  · rw [Int.sign_eq_one_of_pos hgt] at hsign
    exact absurd (Int.sign_eq_neg_one_iff_neg.mp hsign) hxy

/-! ## Accesses -/

variable {nr}

theorem readAt_eq (a : Int → α) {k : Int} (h0 : 0 ≤ k) (hk : k < nr) :
    readAt nr a k = some (a k) := if_pos ⟨h0, hk⟩

theorem writeAt_eq (a : Int → α) (x : α) {k : Int} (h0 : 0 ≤ k) (hk : k < nr) :
    writeAt nr a k x = some (Function.update a k x) := if_pos ⟨h0, hk⟩

/-- Two stores that exchange two elements. -/
theorem update_update_eq_swap (a : Int → α) (i j : Int) :
    Function.update (Function.update a i (a j)) j (a i) = a ∘ Equiv.swap i j := by
  funext k
  rw [Function.comp_apply]
  rcases eq_or_ne k j with rfl | hj
  · rw [Function.update_self, Equiv.swap_apply_right]
  rcases eq_or_ne k i with rfl | hi
  · rw [Function.update_of_ne hj, Function.update_self, Equiv.swap_apply_left]
  · rw [Function.update_of_ne hj, Function.update_of_ne hi, Equiv.swap_apply_of_ne_of_ne hi hj]

/-! ## The scans -/

section Scan

variable {a : Int → α} {pivot : α} {i j : Int}

/-- The scan from the left ends at an element that is not below the pivot. -/
theorem scanUp_spec (fuel : Nat) (h0 : -1 ≤ i) (hij : i < j) (hj : j < nr)
    (hstop : ¬ compar (a j) pivot < 0) (hfuel : j - i ≤ fuel) :
    ∃ i', scanUp compar nr a pivot fuel i = some i' ∧ i < i' ∧ i' ≤ j ∧
      (∀ k, i < k → k < i' → compar (a k) pivot < 0) ∧ ¬ compar (a i') pivot < 0 := by
  induction fuel generalizing i with
  | zero => omega
  | succ fuel ih =>
    rw [scanUp]
    simp only [readAt_eq a (show 0 ≤ i + 1 by omega) (show i + 1 < nr by omega),
      Option.bind_eq_bind, Option.bind_some]
    by_cases hlt : compar (a (i + 1)) pivot < 0
    · have hne : i + 1 ≠ j := by
        rintro rfl
        exact hstop hlt
      obtain ⟨i', hrun, hlo, hhi, hbelow, hend⟩ :=
        ih (i := i + 1) (by omega) (by omega) (by omega)
      refine ⟨i', by rw [if_pos hlt, hrun], by omega, hhi, fun k hk hk' => ?_, hend⟩
      rcases eq_or_lt_of_le (show i + 1 ≤ k by omega) with rfl | hk
      · exact hlt
      · exact hbelow k hk hk'
    · refine ⟨i + 1, by rw [if_neg hlt], by omega, by omega, fun k hk hk' => ?_, hlt⟩
      omega

/-- The scan from the right ends at an element below the pivot, or where `i` is. -/
theorem scanDown_spec (compar : α → α → Int) (a : Int → α) (pivot : α) (fuel : Nat)
    (h0 : 0 < j) (hi : 0 ≤ i) (hij : i ≤ j) (hj : j ≤ nr) (hfuel : j - i < fuel) :
    ∃ j', scanDown compar nr a pivot i fuel j = some j' ∧ 0 ≤ j' ∧ j' < j ∧
      (∀ k, j' < k → k < j → ¬ compar (a k) pivot < 0) ∧
      (i < j' → compar (a j') pivot < 0) := by
  induction fuel generalizing j with
  | zero => omega
  | succ fuel ih =>
    rw [scanDown]
    simp only [readAt_eq a (show 0 ≤ j - 1 by omega) (show j - 1 < nr by omega),
      Option.bind_eq_bind, Option.bind_some]
    by_cases hmore : compar (a (j - 1)) pivot ≥ 0 ∧ i < j - 1
    · obtain ⟨j', hrun, hlo, hhi, habove, hend⟩ :=
        ih (j := j - 1) (by omega) (by omega) (by omega) (by omega)
      refine ⟨j', by rw [if_pos hmore, hrun], hlo, by omega, fun k hk hk' => ?_, hend⟩
      rcases eq_or_lt_of_le (show k ≤ j - 1 by omega) with rfl | hk''
      · omega
      · exact habove k hk hk''
    · refine ⟨j - 1, by rw [if_neg hmore], by omega, by omega, fun k hk hk' => by omega, ?_⟩
      intro hlt
      omega

end Scan

/-! ## The partition -/

/-- Before the outer test of the partition: what is up to `i` is below the pivot, and what is
from `j` on is not. -/
structure PartInv (compar : α → α → Int) (pivot : α) (l r : Int) (a : Int → α) (i j : Int) :
    Prop where
  lo : l - 1 ≤ i
  lt : i < j
  gap : l < j
  hi : j ≤ r
  below : ∀ k, l ≤ k → k ≤ i → compar (a k) pivot < 0
  above : ∀ k, j ≤ k → k ≤ r → ¬ compar (a k) pivot < 0
  last : a r = pivot

/-- What the partition leaves: the place of the pivot is `i`. -/
structure Parted (compar : α → α → Int) (pivot : α) (l r : Int) (a : Int → α) (i : Int) :
    Prop where
  lo : l ≤ i
  hi : i ≤ r
  below : ∀ k, l ≤ k → k < i → compar (a k) pivot < 0
  above : ∀ k, i ≤ k → k ≤ r → ¬ compar (a k) pivot < 0
  last : a r = pivot

section Partition

variable {pivot : α} {a : Int → α} {l r i j i' j' : Int}

/-- The two elements that the scans have stopped at are exchanged. -/
theorem PartInv.exchange (h : PartInv compar pivot l r a i j) (hi : i < i') (hj : j' < j)
    (hup : ∀ k, i < k → k < i' → compar (a k) pivot < 0)
    (hstop : ¬ compar (a i') pivot < 0)
    (hdown : ∀ k, j' < k → k < j → ¬ compar (a k) pivot < 0)
    (hend : compar (a j') pivot < 0) (hlt : i' < j') :
    PartInv compar pivot l r (a ∘ Equiv.swap i' j') i' j' := by
  have hlo := h.lo
  have hhi := h.hi
  have hother : ∀ k, k ≠ i' → k ≠ j' → (a ∘ Equiv.swap i' j') k = a k := by
    intro k hki hkj
    rw [Function.comp_apply, Equiv.swap_apply_of_ne_of_ne hki hkj]
  have hleft : (a ∘ Equiv.swap i' j') i' = a j' := by
    rw [Function.comp_apply, Equiv.swap_apply_left]
  have hright : (a ∘ Equiv.swap i' j') j' = a i' := by
    rw [Function.comp_apply, Equiv.swap_apply_right]
  constructor
  · omega
  · exact hlt
  · omega
  · omega
  · intro k hk hk'
    rcases eq_or_lt_of_le hk' with rfl | hk'
    · rw [hleft]
      exact hend
    · rw [hother k (by omega) (by omega)]
      rcases Int.lt_or_le i k with hki | hki
      · exact hup k hki hk'
      · exact h.below k hk hki
  · intro k hk hk'
    rcases eq_or_lt_of_le hk with rfl | hk
    · rw [hright]
      exact hstop
    · rw [hother k (by omega) (by omega)]
      rcases Int.lt_or_le k j with hkj | hkj
      · exact hdown k hk hkj
      · exact h.above k hkj hk'
  · rw [hother r (by omega) (by omega), h.last]

/-- The scans have met. -/
theorem PartInv.parted (h : PartInv compar pivot l r a i j) (hi : i < i') (hij : i' ≤ j)
    (hup : ∀ k, i < k → k < i' → compar (a k) pivot < 0)
    (hstop : ¬ compar (a i') pivot < 0)
    (hdown : ∀ k, j' < k → k < j → ¬ compar (a k) pivot < 0) (hmet : j' ≤ i') :
    Parted compar pivot l r a i' := by
  have hlo := h.lo
  have hhi := h.hi
  constructor
  · omega
  · omega
  · intro k hk hk'
    rcases Int.lt_or_le i k with hki | hki
    · exact hup k hki hk'
    · exact h.below k hk hki
  · intro k hk hk'
    rcases eq_or_lt_of_le hk with rfl | hk
    · exact hstop
    · rcases Int.lt_or_le k j with hkj | hkj
      · exact hdown k (by omega) hkj
      · exact h.above k hkj hk'
  · exact h.last

/-- The loop exchanges elements until the scans meet. -/
theorem partition_spec {bound fuel : Nat} (hl : 0 ≤ l) (hr : r < nr) (hbound : r - l + 2 ≤ bound)
    (hfuel : j - i < fuel) (hfuel0 : 0 < fuel) (h : PartInv compar pivot l r a i j) :
    ∃ a' i', partition compar nr pivot bound fuel a i j = some (a', i') ∧
      Rearranged l r a a' ∧ Parted compar pivot l r a' i' := by
  induction fuel generalizing a i j with
  | zero => omega
  | succ fuel ih =>
    have hlo := h.lo
    have hhi := h.hi
    have hgap := h.gap
    obtain ⟨i', hup, hi, hij, hskip, hstop⟩ := scanUp_spec bound (show -1 ≤ i by omega) h.lt
      (show j < (nr : Int) by omega) (h.above j le_rfl hhi) (by omega)
    obtain ⟨j', hdown, hj0, hj, hpass, hend⟩ := scanDown_spec compar a pivot bound
      (show 0 < j by omega) (show 0 ≤ i' by omega) hij (show j ≤ (nr : Int) by omega) (by omega)
    rw [partition, if_pos h.lt]
    simp only [hup, hdown, Option.bind_eq_bind, Option.bind_some]
    by_cases hlt : i' < j'
    · simp only [if_pos hlt, readAt_eq a (show 0 ≤ i' by omega) (show i' < nr by omega),
        readAt_eq a hj0 (show j' < nr by omega), Option.bind_some,
        writeAt_eq a (a j') (show 0 ≤ i' by omega) (show i' < nr by omega),
        writeAt_eq _ (a i') hj0 (show j' < nr by omega), update_update_eq_swap]
      obtain ⟨a', i'', hrun, hmoved, hparted⟩ := ih (a := a ∘ Equiv.swap i' j') (i := i') (j := j')
        (by omega) (by omega) (h.exchange hi hj hskip hstop hpass (hend hlt) hlt)
      refine ⟨a', i'', hrun, ?_, hparted⟩
      exact (Rearranged.swap a (by omega) (by omega)).trans hmoved
    · obtain ⟨fuel, rfl⟩ : ∃ f, fuel = f + 1 := ⟨fuel - 1, by have := h.lt; omega⟩
      refine ⟨a, i', ?_, Rearranged.refl l r a, h.parted hi hij hskip hstop hpass (by omega)⟩
      rw [if_neg hlt, partition, if_neg hlt]

end Partition

/-! ## The sort -/

/-- The pivot is in its place. -/
structure Pivoted (compar : α → α → Int) (l r i : Int) (a : Int → α) : Prop where
  below : ∀ k, l ≤ k → k ≤ i - 1 → compar (a k) (a i) < 0
  above : ∀ k, i + 1 ≤ k → k ≤ r → ¬ compar (a k) (a i) < 0

section Sorting

variable {a b : Int → α} {l r i : Int}

theorem Parted.pivoted {pivot : α} (h : Parted compar pivot l r a i) :
    Pivoted compar l r i (a ∘ Equiv.swap r i) := by
  have hpivot : (a ∘ Equiv.swap r i) i = pivot := by
    rw [Function.comp_apply, Equiv.swap_apply_right, h.last]
  constructor
  · intro k hk hki
    have hhi := h.hi
    rw [hpivot, Function.comp_apply, Equiv.swap_apply_of_ne_of_ne (by omega) (by omega)]
    exact h.below k hk (by omega)
  · intro k hk hkr
    rw [hpivot, Function.comp_apply]
    rcases eq_or_ne k r with rfl | hne
    · rw [Equiv.swap_apply_left]
      exact h.above i le_rfl h.hi
    · rw [Equiv.swap_apply_of_ne_of_ne hne (by omega)]
      exact h.above k (by omega) hkr

/-- Sorting the part to the left leaves it there ... -/
theorem Pivoted.left (h : Pivoted compar l r i a) (hmoved : Rearranged l (i - 1) a b) :
    Pivoted compar l r i b := by
  have hpivot := hmoved.outside (k := i) (by omega)
  constructor
  · intro k hk hki
    rw [hpivot]
    exact hmoved.forall_inside (P := fun x => compar x (a i) < 0) h.below hk hki
  · intro k hk hkr
    rw [hpivot, hmoved.outside (by omega)]
    exact h.above k hk hkr

/-- ... and so does sorting the part to the right. -/
theorem Pivoted.right (h : Pivoted compar l r i a) (hmoved : Rearranged (i + 1) r a b) :
    Pivoted compar l r i b := by
  have hpivot := hmoved.outside (k := i) (by omega)
  constructor
  · intro k hk hki
    rw [hpivot, hmoved.outside (by omega)]
    exact h.below k hk hki
  · intro k hk hkr
    rw [hpivot]
    exact hmoved.forall_inside (P := fun x => ¬ compar x (a i) < 0) h.above hk hkr

/-- With both parts sorted, the whole is. -/
theorem Pivoted.sorted (h : Pivoted compar l r i a) (hcmp : TotalPreorder compar)
    (hleft : SortedOn (fun x y => compar x y ≤ 0) l (i - 1) a)
    (hright : SortedOn (fun x y => compar x y ≤ 0) (i + 1) r a) :
    SortedOn (fun x y => compar x y ≤ 0) l r a :=
  .join (fun x => (hcmp.refl x).le) hcmp.trans hleft hright (fun k hk hki => (h.below k hk hki).le)
    fun k hk hkr => hcmp.le_of_not_lt (h.above k hk hkr)

/-- From the pivot in the middle to the pivot in its place. -/
theorem partition_middle {bound : Nat} (hcmp : TotalPreorder compar) (hl : 0 ≤ l) (hlr : l < r)
    (hr : r < nr) (hnr : nr < 2 ^ 30) (hbound : r - l + 2 ≤ bound) :
    ∃ m a' i, middle l r = some m ∧ 0 ≤ m ∧ m < nr ∧
      partition compar nr (a m) bound bound (a ∘ Equiv.swap m r) (l - 1) r = some (a', i) ∧
      a' r = a m ∧ l ≤ i ∧ i ≤ r ∧ Rearranged l r a (a' ∘ Equiv.swap r i) ∧
      Pivoted compar l r i (a' ∘ Equiv.swap r i) := by
  obtain ⟨m, hm⟩ : ∃ m, m = (l + r).tdiv 2 := ⟨_, rfl⟩
  have hmid : l ≤ m ∧ m ≤ r := by
    rw [hm, Int.tdiv_eq_ediv_of_nonneg (by omega)]
    omega
  have hlast : (a ∘ Equiv.swap m r) r = a m := by
    rw [Function.comp_apply, Equiv.swap_apply_right]
  have hinv : PartInv compar (a m) l r (a ∘ Equiv.swap m r) (l - 1) r := by
    refine ⟨le_rfl, by omega, hlr, le_rfl, fun k hk hk' => by omega, fun k hk hk' => ?_, hlast⟩
    obtain rfl : k = r := by omega
    rw [hlast, hcmp.refl]
    exact lt_irrefl 0
  obtain ⟨a', i, hrun, hmoved, hparted⟩ :=
    partition_spec hl hr hbound (show r - (l - 1) < (bound : Int) by omega) (by omega) hinv
  refine ⟨m, a', i, ?_, by omega, by omega, hrun, hparted.last, hparted.lo, hparted.hi, ?_,
    hparted.pivoted⟩
  · rw [middle, if_pos (by omega), hm]
  · exact ((Rearranged.swap a hmid (by omega)).trans hmoved).trans
      (Rearranged.swap a' (by omega) ⟨hparted.lo, hparted.hi⟩)

theorem qsortPRange_spec {bound fuel : Nat} (hcmp : TotalPreorder compar) (hl : 0 ≤ l)
    (hr : r < nr) (hnr : nr < 2 ^ 30) (hbound : nr + 1 ≤ bound) (hfuel : (r - l + 1).toNat < fuel) :
    ∃ a', qsortPRange compar nr bound fuel a l r = some a' ∧ Rearranged l r a a' ∧
      SortedOn (fun x y => compar x y ≤ 0) l r a' := by
  induction fuel generalizing a l r with
  | zero => omega
  | succ fuel ih =>
    by_cases hlr : l < r
    · obtain ⟨m, a', i, hm, hm0, hmr, hpart, hlast, hli, hir, hmoved, hpivoted⟩ :=
        partition_middle (a := a) hcmp hl hlr hr hnr (show r - l + 2 ≤ (bound : Int) by omega)
      obtain ⟨a₁, ha₁⟩ : ∃ a₁, a₁ = a' ∘ Equiv.swap r i := ⟨_, rfl⟩
      rw [← ha₁] at hmoved hpivoted
      rw [qsortPRange, if_pos hlr]
      simp only [hm, readAt_eq a hm0 hmr, readAt_eq a (show 0 ≤ r by omega) hr,
        writeAt_eq a (a r) hm0 hmr, writeAt_eq _ (a m) (show 0 ≤ r by omega) hr,
        update_update_eq_swap, hpart, Option.bind_eq_bind, Option.bind_some,
        readAt_eq a' (show 0 ≤ i by omega) (show i < nr by omega),
        writeAt_eq a' (a' i) (show 0 ≤ r by omega) hr]
      rw [← hlast]
      simp only [writeAt_eq _ (a' r) (show 0 ≤ i by omega) (show i < nr by omega),
        update_update_eq_swap, Option.bind_some, ← ha₁]
      split
      · obtain ⟨a₂, hrun₂, hmoved₂, hsorted₂⟩ :=
          ih (a := a₁) (l := l) (r := i - 1) hl (by omega) (by omega)
        obtain ⟨a₃, hrun₃, hmoved₃, hsorted₃⟩ :=
          ih (a := a₂) (l := i + 1) (r := r) (by omega) hr (by omega)
        refine ⟨a₃, by rw [hrun₂, Option.bind_some, hrun₃], ?_, ?_⟩
        · exact (hmoved.trans (hmoved₂.mono le_rfl (by omega))).trans
            (hmoved₃.mono (by omega) le_rfl)
        · exact ((hpivoted.left hmoved₂).right hmoved₃).sorted hcmp
            (hsorted₂.of_outside hmoved₃ (.inl (by omega))) hsorted₃
      · obtain ⟨a₂, hrun₂, hmoved₂, hsorted₂⟩ :=
          ih (a := a₁) (l := i + 1) (r := r) (by omega) hr (by omega)
        obtain ⟨a₃, hrun₃, hmoved₃, hsorted₃⟩ :=
          ih (a := a₂) (l := l) (r := i - 1) hl (by omega) (by omega)
        refine ⟨a₃, by rw [hrun₂, Option.bind_some, hrun₃], ?_, ?_⟩
        · exact (hmoved.trans (hmoved₂.mono (by omega) le_rfl)).trans
            (hmoved₃.mono le_rfl (by omega))
        · exact ((hpivoted.right hmoved₂).left hmoved₃).sorted hcmp hsorted₃
            (hsorted₂.of_outside hmoved₃ (.inr (by omega)))
    · refine ⟨a, by rw [qsortPRange, if_neg hlr], Rearranged.refl l r a, fun j k hj hjk hk => ?_⟩
      obtain rfl : j = k := by omega
      exact (hcmp.refl _).le

/-- `qsort_p` ends, stays within the array, and sorts it. -/
theorem qsortP_sorts (hnr : nr < 2 ^ 30) (hcmp : TotalPreorder compar) (a : Int → α) {fuel : Nat}
    (hfuel : nr < fuel) :
    ∃ a', qsortP compar nr fuel a = some a' ∧ (∀ k, k < 0 ∨ (nr : Int) ≤ k → a' k = a k) ∧
      ((List.range nr).map fun k : Nat => a' k).Perm ((List.range nr).map fun k : Nat => a k) ∧
      ∀ i j : Nat, i ≤ j → j < nr → compar (a' i) (a' j) ≤ 0 := by
  have hlast : (BitVec.ofNat 32 nr - 1).toInt = nr - 1 := by
    rw [BitVec.toInt_eq_toNat_cond]
    split <;> bv_omega
  obtain ⟨a', hrun, hmoved, hsorted⟩ := qsortPRange_spec (a := a) hcmp le_rfl
    (show (nr - 1 : Int) < nr by omega) hnr (show nr + 1 ≤ fuel by omega)
    (show (nr - 1 - 0 + 1 : Int).toNat < fuel by omega)
  refine ⟨a', ?_, fun k hk => hmoved.outside (by omega), hmoved.perm, fun i j hij hj => ?_⟩
  · rw [qsortP, hlast, hrun]
  · exact hsorted i j (by omega) (by omega) (by omega)

end Sorting

end Qsort

/-- Numbers, compared by their last digit. -/
def compareDigit (x y : Nat) : Int := (x % 10 : Nat) - (y % 10 : Nat)

theorem totalPreorder_compareDigit : TotalPreorder compareDigit where
  refl := fun x => Int.sub_self _
  trans := by
    intro x y z hxy hyz
    rw [compareDigit] at *
    omega
  antisymm := by
    intro x y
    rw [compareDigit, compareDigit, ← Int.sign_neg, Int.neg_sub]

/-- Numbers with the same last digit may end up in either order. -/
theorem qsortP_sorts_digits :
    5 < 2 ^ 30 ∧ TotalPreorder compareDigit ∧
      ∃ a', qsortP compareDigit 5 6 (fun k => [31, 52, 21, 90, 11].getD k.toNat 0) = some a' ∧
        compareDigit (a' 1) (a' 4) ≤ 0 := by
  obtain ⟨a', hrun, -, -, hsorted⟩ := qsortP_sorts (show 5 < 2 ^ 30 by decide)
    totalPreorder_compareDigit (fun k => [31, 52, 21, 90, 11].getD k.toNat 0) (show 5 < 6 by decide)
  exact ⟨by decide, totalPreorder_compareDigit, a', hrun, hsorted 1 4 (by decide) (by decide)⟩

end FlashFloppyTestbed
