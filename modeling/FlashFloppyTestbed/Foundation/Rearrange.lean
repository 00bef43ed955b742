/-
  Foundation/Rearrange.lean --- arrays whose elements have been moved around within
  an interval of indices, and what it takes to sort one.

  `Rearranged l r a a'` is kept by swaps and composes, so that a sort by swaps need
  not say what it did.  A property of all elements in the interval survives it
  (`Rearranged.forall_inside`).  `SortedOn.join` puts two sorted parts and an element
  between them together.
-/
import Mathlib.Algebra.Order.Ring.Int
import Mathlib.Data.List.Nodup
import Mathlib.Data.List.Perm.Subperm
import Mathlib.Logic.Equiv.Basic

set_option autoImplicit false

namespace FlashFloppyTestbed.Foundation

variable {α : Type} {a b c : Int → α} {l r : Int}

/-! ## Rearrangements -/

/-- `a'` has the elements of `a`, in another order between `l` and `r`. -/
def Rearranged (l r : Int) (a a' : Int → α) : Prop :=
  ∃ σ : Equiv.Perm Int, (∀ k, k < l ∨ r < k → σ k = k) ∧ a' = a ∘ σ

namespace Rearranged

theorem refl (l r : Int) (a : Int → α) : Rearranged l r a a :=
  ⟨Equiv.refl Int, fun _ _ => rfl, rfl⟩

theorem trans (h : Rearranged l r a b) (h' : Rearranged l r b c) : Rearranged l r a c := by
  obtain ⟨σ, hσ, rfl⟩ := h
  obtain ⟨τ, hτ, rfl⟩ := h'
  refine ⟨τ.trans σ, fun k hk => ?_, rfl⟩
  rw [Equiv.trans_apply, hτ k hk, hσ k hk]

theorem mono {l' r' : Int} (h : Rearranged l r a b) (hl : l' ≤ l) (hr : r ≤ r') :
    Rearranged l' r' a b := by
  obtain ⟨σ, hσ, rfl⟩ := h
  exact ⟨σ, fun k hk => hσ k (by omega), rfl⟩

theorem swap (a : Int → α) {i j : Int} (hi : l ≤ i ∧ i ≤ r) (hj : l ≤ j ∧ j ≤ r) :
    Rearranged l r a (a ∘ Equiv.swap i j) :=
  ⟨Equiv.swap i j, fun k hk => Equiv.swap_apply_of_ne_of_ne (by omega) (by omega), rfl⟩

/-- The rest is as it was. -/
theorem outside (h : Rearranged l r a b) {k : Int} (hk : k < l ∨ r < k) : b k = a k := by
  obtain ⟨σ, hσ, rfl⟩ := h
  rw [Function.comp_apply, hσ k hk]

/-- The permutation maps the interval to itself. -/
theorem mem_of_fixed {σ : Equiv.Perm Int} (hσ : ∀ k, k < l ∨ r < k → σ k = k) {k : Int}
    (hk : l ≤ k ∧ k ≤ r) : l ≤ σ k ∧ σ k ≤ r := by
  by_contra hout
  have hfixed : σ (σ k) = σ k := hσ _ (by omega)
  have hsame : σ k = k := σ.injective hfixed
  rw [hsame] at hout
  exact hout hk

/-- What all the elements in the interval have, they still have. -/
theorem forall_inside (h : Rearranged l r a b) {P : α → Prop}
    (hP : ∀ k, l ≤ k → k ≤ r → P (a k)) {k : Int} (hl : l ≤ k) (hr : k ≤ r) : P (b k) := by
  obtain ⟨σ, hσ, rfl⟩ := h
  have hmem := mem_of_fixed hσ ⟨hl, hr⟩
  exact hP _ hmem.1 hmem.2

/-- As lists, one is a permutation of the other. -/
theorem perm {n : Nat} (h : Rearranged 0 (n - 1 : Int) a b) :
    ((List.range n).map fun k : Nat => b k).Perm ((List.range n).map fun k : Nat => a k) := by
  obtain ⟨σ, hσ, rfl⟩ := h
  have hval : ∀ k : Nat, k < n → ((σ k).toNat : Int) = σ k ∧ (σ k).toNat < n := by
    intro k hk
    have hmem := mem_of_fixed hσ (show (0 : Int) ≤ k ∧ (k : Int) ≤ n - 1 by omega)
    omega
  have hindex : ((List.range n).map fun k : Nat => (σ k).toNat).Perm (List.range n) := by
    have hnodup : ((List.range n).map fun k : Nat => (σ k).toNat).Nodup := by
      refine List.Nodup.map_on (fun i hi j hj heq => ?_) List.nodup_range
      have hi' := hval i (List.mem_range.mp hi)
      have hj' := hval j (List.mem_range.mp hj)
      have hσeq : σ i = σ j := by omega
      exact Int.ofNat.inj (σ.injective hσeq)
    refine (List.subperm_of_subset hnodup fun m hm => ?_).perm_of_length_le (by simp)
    obtain ⟨k, hk, rfl⟩ := List.mem_map.mp hm
    exact List.mem_range.mpr (hval k (List.mem_range.mp hk)).2
  have hmap := hindex.map fun k : Nat => a k
  rw [List.map_map] at hmap
  refine (List.Perm.of_eq (List.map_congr_left fun k hk => ?_)).trans hmap
  rw [Function.comp_apply, Function.comp_apply, (hval k (List.mem_range.mp hk)).1]

end Rearranged

/-! ## Sorted intervals -/

/-- Between `l` and `r` the elements are in order. -/
def SortedOn (le : α → α → Prop) (l r : Int) (a : Int → α) : Prop :=
  ∀ i j, l ≤ i → i ≤ j → j ≤ r → le (a i) (a j)

/-- A sorted interval is not touched by what happens elsewhere. -/
theorem SortedOn.of_outside {le : α → α → Prop} {l' r' : Int} (h : SortedOn le l r a)
    (hmoved : Rearranged l' r' a b) (hdisjoint : r < l' ∨ r' < l) : SortedOn le l r b := by
  intro i j hi hij hj
  rw [hmoved.outside (k := i) (by omega), hmoved.outside (k := j) (by omega)]
  exact h i j hi hij hj

/-- Two sorted parts, and an element between them. -/
theorem SortedOn.join {le : α → α → Prop} {i : Int} (hrefl : ∀ x, le x x)
    (htrans : ∀ x y z, le x y → le y z → le x z) (hleft : SortedOn le l (i - 1) a)
    (hright : SortedOn le (i + 1) r a) (hbelow : ∀ k, l ≤ k → k ≤ i - 1 → le (a k) (a i))
    (habove : ∀ k, i + 1 ≤ k → k ≤ r → le (a i) (a k)) : SortedOn le l r a := by
  intro j k hj hjk hk
  rcases lt_trichotomy j i with hji | rfl | hji
  · rcases lt_trichotomy k i with hki | rfl | hki
    · exact hleft j k hj hjk (by omega)
    · exact hbelow j hj (by omega)
    · exact htrans _ _ _ (hbelow j hj (by omega)) (habove k (by omega) hk)
  · rcases eq_or_lt_of_le hjk with rfl | hlt
    · exact hrefl _
    · exact habove k (by omega) hk
  · exact hright j k (by omega) hjk hk

end FlashFloppyTestbed.Foundation
