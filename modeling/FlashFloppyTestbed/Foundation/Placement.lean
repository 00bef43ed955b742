/-
  Foundation/Placement.lean --- things put on a ring of `n` slots one after the
  other, each on the first free slot from the one it is wanted at.

  The first thing is wanted at `start`, every other `step` slots behind the one
  before it (`Placed`).  While there are fewer things than slots there is a free
  one (`exists_firstFree`), so that `n` things take every slot once
  (`Placed.existsUnique`).  Where `step` and `n` share no factor, each is put
  where it is wanted (`Placed.eq_of_coprime`).
-/
import Mathlib.Data.Finset.Card
import Mathlib.Data.Nat.Find
import Mathlib.Data.Nat.ModEq
import Mathlib.Tactic.Common

set_option autoImplicit false

namespace FlashFloppyTestbed.Foundation

/-! ## The first free slot -/

/-- `s` is the first slot of a ring of `n`, going up from `start`, that is not taken. -/
def FirstFree (n : Nat) (taken : Nat → Prop) (start s : Nat) : Prop :=
  ∃ k, k < n ∧ s = (start + k) % n ∧ ¬ taken s ∧ ∀ j, j < k → taken ((start + j) % n)

namespace FirstFree

variable {n start s : Nat} {taken : Nat → Prop}

theorem lt (h : FirstFree n taken start s) : s < n := by
  obtain ⟨k, hk, rfl, -, -⟩ := h
  exact Nat.mod_lt _ (by omega)

theorem free (h : FirstFree n taken start s) : ¬ taken s := by
  obtain ⟨-, -, -, hfree, -⟩ := h
  exact hfree

/-- A free slot is kept. -/
theorem eq_of_free (h : FirstFree n taken start s) (hfree : ¬ taken (start % n)) :
    s = start % n := by
  obtain ⟨k, -, rfl, -, htaken⟩ := h
  cases k with
  | zero => rfl
  | succ k => exact absurd (htaken 0 k.succ_pos) hfree

/-- A search may start at the slot that `start` is on. -/
theorem of_mod (h : FirstFree n taken start s) : FirstFree n taken (start % n) s := by
  obtain ⟨k, hk, rfl, hfree, htaken⟩ := h
  refine ⟨k, hk, (Nat.mod_add_mod _ _ _).symm, hfree, fun j hj => ?_⟩
  rw [Nat.mod_add_mod]
  exact htaken j hj

/-- What is taken matters on the ring only. -/
theorem congr {taken' : Nat → Prop} (h : FirstFree n taken start s)
    (heq : ∀ s, s < n → (taken s ↔ taken' s)) : FirstFree n taken' start s := by
  obtain ⟨k, hk, rfl, hfree, htaken⟩ := h
  have hlt : ∀ j, (start + j) % n < n := fun j => Nat.mod_lt _ (by omega)
  refine ⟨k, hk, rfl, ?_, fun j hj => (heq _ (hlt j)).mp (htaken j hj)⟩
  rwa [← heq _ (hlt k)]

end FirstFree

/-- Going around the ring once meets every slot once. -/
theorem ring_inj {n start j k : Nat} (hj : j < n) (hk : k < n)
    (h : (start + j) % n = (start + k) % n) : j = k := by
  have hmod : j ≡ k [MOD n] := Nat.ModEq.add_left_cancel' start h
  rwa [Nat.ModEq, Nat.mod_eq_of_lt hj, Nat.mod_eq_of_lt hk] at hmod

/-- Fewer than `n` slots taken leave one free. -/
theorem exists_firstFree {n : Nat} {taken : Finset Nat} (hcard : taken.card < n) (start : Nat) :
    ∃ s, FirstFree n (· ∈ taken) start s := by
  classical
  obtain ⟨k, hk, hfree⟩ : ∃ k, k < n ∧ (start + k) % n ∉ taken := by
    by_contra hall
    push Not at hall
    have hinj : Set.InjOn (fun k => (start + k) % n) (Finset.range n) := by
      intro j hj k hk h
      exact ring_inj (by simpa using hj) (by simpa using hk) h
    have hle : ((Finset.range n).image fun k => (start + k) % n).card ≤ taken.card := by
      refine Finset.card_le_card fun s hs => ?_
      obtain ⟨k, hk, rfl⟩ := Finset.mem_image.mp hs
      exact hall k (by simpa using hk)
    rw [Finset.card_image_of_injOn hinj, Finset.card_range] at hle
    omega
  have hex : ∃ k, (start + k) % n ∉ taken := ⟨k, hfree⟩
  refine ⟨_, Nat.find hex, (Nat.find_min' hex hfree).trans_lt hk, rfl, Nat.find_spec hex, ?_⟩
  intro j hj
  exact not_not.mp (Nat.find_min hex hj)

/-! ## One after the other -/

/-- The slot that thing `i` is wanted at. -/
def wanted (step start : Nat) (slot : Nat → Nat) : Nat → Nat
  | 0 => start
  | i + 1 => slot i + step

/-- The first `m` things are on the slots `slot 0`, `slot 1`, ... -/
def Placed (n step start m : Nat) (slot : Nat → Nat) : Prop :=
  ∀ i, i < m → FirstFree n (fun s => ∃ j, j < i ∧ slot j = s) (wanted step start slot i) (slot i)

namespace Placed

variable {n step start m : Nat} {slot : Nat → Nat}

theorem lt (h : Placed n step start m slot) {i : Nat} (hi : i < m) : slot i < n := (h i hi).lt

theorem ne (h : Placed n step start m slot) {i j : Nat} (hj : j < i) (hi : i < m) :
    slot j ≠ slot i :=
  fun heq => (h i hi).free ⟨j, hj, heq⟩

theorem inj (h : Placed n step start m slot) {i j : Nat} (hi : i < m) (hj : j < m)
    (heq : slot i = slot j) : i = j := by
  rcases lt_trichotomy i j with hlt | rfl | hlt
  · exact absurd heq (h.ne hlt hj)
  · rfl
  · exact absurd heq.symm (h.ne hlt hi)

/-- One more thing leaves the others where they are. -/
theorem extend (h : Placed n step start m slot) {s : Nat}
    (hs : FirstFree n (fun s => ∃ j, j < m ∧ slot j = s) (wanted step start slot m) s) :
    Placed n step start (m + 1) (Function.update slot m s) := by
  have hold : ∀ j, j < m → Function.update slot m s j = slot j :=
    fun j hj => Function.update_of_ne hj.ne _ _
  have hwanted : ∀ i, i ≤ m →
      wanted step start (Function.update slot m s) i = wanted step start slot i := by
    intro i hi
    cases i with
    | zero => rfl
    | succ i => rw [wanted, wanted, hold i hi]
  have htaken : ∀ i, i ≤ m → ∀ s', (∃ j, j < i ∧ slot j = s') ↔
      ∃ j, j < i ∧ Function.update slot m s j = s' := by
    intro i hi s'
    refine exists_congr fun j => and_congr_right fun hj => ?_
    rw [hold j (hj.trans_le hi)]
  intro i hi
  rw [hwanted i (by omega)]
  rcases Nat.lt_succ_iff_lt_or_eq.mp hi with hlt | rfl
  · rw [hold i hlt]
    exact (h i hlt).congr fun s' _ => htaken i hlt.le s'
  · rw [Function.update_self]
    exact hs.congr fun s' _ => htaken i le_rfl s'

/-- There is a slot for one more. -/
theorem exists_next (hm : m < n) (slot : Nat → Nat) (base : Nat) :
    ∃ s, FirstFree n (fun s => ∃ j, j < m ∧ slot j = s) base s := by
  classical
  have hcard : ((Finset.range m).image slot).card < n :=
    (Finset.card_image_le.trans_eq (Finset.card_range m)).trans_lt hm
  obtain ⟨s, hs⟩ := exists_firstFree hcard base
  exact ⟨s, hs.congr fun s' _ => by simp⟩

/-- As many things as slots: every slot has one. -/
theorem existsUnique (h : Placed n step start n slot) {s : Nat} (hs : s < n) :
    ∃! i, i < n ∧ slot i = s := by
  classical
  have hmaps : Set.MapsTo slot (Finset.range n) (Finset.range n) := by
    intro i hi
    simpa using h.lt (by simpa using hi)
  have hinj : Set.InjOn slot (Finset.range n) := by
    intro i hi j hj heq
    exact h.inj (by simpa using hi) (by simpa using hj) heq
  obtain ⟨i, hi, heq⟩ := Finset.surjOn_of_injOn_of_card_le slot hmaps hinj le_rfl
    (by simpa using hs : s ∈ (Finset.range n : Set Nat))
  refine ⟨i, ⟨by simpa using hi, heq⟩, fun j hj => ?_⟩
  exact h.inj hj.1 (by simpa using hi) (hj.2.trans heq.symm)

/-- Where `step` and `n` share no factor, the slots are those of a plain stride. -/
theorem eq_of_coprime (h : Placed n step start m slot) (hm : m ≤ n) (hstep : step.Coprime n)
    {i : Nat} (hi : i < m) : slot i = (start + i * step) % n := by
  induction i using Nat.strongRecOn with
  | ind i ih =>
    have hwanted : wanted step start slot i % n = (start + i * step) % n := by
      cases i with
      | zero => simp [wanted]
      | succ i =>
        rw [wanted, ih i (by omega) (by omega), Nat.mod_add_mod]
        rw [Nat.succ_mul, Nat.add_assoc]
    have hfree : ¬ ∃ j, j < i ∧ slot j = wanted step start slot i % n := by
      rintro ⟨j, hj, heq⟩
      rw [ih j hj (by omega), hwanted] at heq
      have hmod : j * step ≡ i * step [MOD n] := Nat.ModEq.add_left_cancel' start heq
      have hcancel : j ≡ i [MOD n] := hmod.cancel_right_of_coprime hstep.symm
      rw [Nat.ModEq, Nat.mod_eq_of_lt (by omega), Nat.mod_eq_of_lt (by omega)] at hcancel
      omega
    rw [(h i hi).eq_of_free hfree, hwanted]

end Placed

end FlashFloppyTestbed.Foundation
