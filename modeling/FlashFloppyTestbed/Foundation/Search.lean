/-
  Foundation/Search.lean --- occurrences of one list in another.

  `OccursAt pat l i` says that `pat` is found in `l` at offset `i`, and
  `FirstAt` that it is not found any earlier.  A scanner that consumes `l` from
  the front meets an occurrence when it has read up to its end: the two views
  are related by `occursAt_iff_suffix_take`.

  A search on a ring looks at `size` positions from its start on, which is as good
  as looking at all of them (`find?_ring_eq`).  A loop of searches, each of which goes
  on behind what the last one has met, in time for what is next, meets everything in
  turn (`InTime.firstFrom`, `InTime.search_rule`).
-/
import Mathlib.Data.List.Basic
import Mathlib.Data.Nat.Find
import Mathlib.Tactic.Common

set_option autoImplicit false

namespace FlashFloppyTestbed.Foundation

variable {α : Type}

/-- `pat` occurs in `l` at offset `i`. -/
def OccursAt (pat l : List α) (i : Nat) : Prop := (l.drop i).take pat.length = pat

instance [DecidableEq α] (pat l : List α) (i : Nat) : Decidable (OccursAt pat l i) :=
  inferInstanceAs (Decidable (_ = _))

/-- The first occurrence of `pat` in `l` is at offset `i`. -/
def FirstAt (pat l : List α) (i : Nat) : Prop :=
  OccursAt pat l i ∧ ∀ j, j < i → ¬ OccursAt pat l j

theorem OccursAt.le_length {pat l : List α} {i : Nat} (h : OccursAt pat l i) (hpat : pat ≠ []) :
    i + pat.length ≤ l.length := by
  have hlen := congrArg List.length h
  have hpos := List.length_pos_iff.mpr hpat
  simp only [List.length_take, List.length_drop] at hlen
  omega

/-- An occurrence, seen from its end. -/
theorem occursAt_iff_suffix_take {pat l : List α} {i : Nat} (hle : i + pat.length ≤ l.length) :
    OccursAt pat l i ↔ pat <:+ l.take (i + pat.length) := by
  rw [OccursAt, List.take_add]
  constructor
  · intro h
    rw [h]
    exact List.suffix_append _ _
  · intro h
    have hsuffix : (l.drop i).take pat.length <:+ l.take i ++ (l.drop i).take pat.length :=
      List.suffix_append _ _
    refine (List.IsSuffix.eq_of_length (List.suffix_of_suffix_length_le h hsuffix ?_) ?_).symm
    · simp
      omega
    · simp
      omega

/-- Text behind an occurrence does not matter. -/
theorem occursAt_append_iff {pat l l' : List α} {i : Nat} (hle : i + pat.length ≤ l.length) :
    OccursAt pat (l ++ l') i ↔ OccursAt pat l i := by
  rw [OccursAt, OccursAt, List.drop_append_of_le_length (by omega),
    List.take_append_of_le_length (by simp; omega)]

/-! ## Searching a ring -/

/-- The position a search finds on a ring is the first one from its start on. -/
theorem find?_ring_eq {P : Nat → Prop} [DecidablePred P] {size t o : Nat}
    (hmod : ∀ o, P (o % size) ↔ P o) (ho : P o) (hle : t ≤ o)
    (hfirst : ∀ o', t ≤ o' → o' < o → ¬ P o') (hsize : 0 < size) :
    ((List.range size).map (t + ·)).find? (fun o => decide (P o)) = some o := by
  -- a position further away than the ring is met one turn earlier
  have hlt : o < t + size := by
    by_contra hge
    refine hfirst (o - size) (by omega) (by omega) ?_
    rw [← hmod, ← Nat.mod_eq_sub_mod (by omega), hmod]
    exact ho
  obtain ⟨k, rfl⟩ : ∃ k, o = t + k := ⟨o - t, by omega⟩
  rw [List.find?_map]
  have hfind : (List.range size).find? ((fun o => decide (P o)) ∘ (t + ·)) = some k := by
    rw [List.find?_range_eq_some]
    refine ⟨decide_eq_true ho, List.mem_range.mpr (by omega), fun j hj => ?_⟩
    rw [Function.comp_apply, Bool.not_eq_true', decide_eq_false_iff_not]
    exact hfirst (t + j) (by omega) (by omega)
  rw [hfind]
  rfl

/-- What a search finds is there, is not in front of its start, and is the first. -/
theorem of_find?_ring {P : Nat → Prop} [DecidablePred P] {size t o : Nat}
    (h : ((List.range size).map (t + ·)).find? (fun o => decide (P o)) = some o) :
    P o ∧ t ≤ o ∧ ∀ o', t ≤ o' → o' < o → ¬ P o' := by
  rw [List.find?_map, Option.map_eq_some_iff] at h
  obtain ⟨k, hk, rfl⟩ := h
  rw [List.find?_range_eq_some] at hk
  obtain ⟨hP, -, hfirst⟩ := hk
  refine ⟨of_decide_eq_true hP, Nat.le_add_right t k, fun o' hlo hhi => ?_⟩
  have hnot := hfirst (o' - t) (by omega)
  rw [Function.comp_apply, Nat.add_sub_of_le hlo, Bool.not_eq_true',
    decide_eq_false_iff_not] at hnot
  exact hnot

/-! ## Going around a ring -/

/-- The first position at or behind `t` where `P` holds. -/
def FirstFrom (P : Nat → Prop) (t o : Nat) : Prop :=
  P o ∧ t ≤ o ∧ ∀ o', t ≤ o' → o' < o → ¬ P o'

theorem exists_firstFrom {P : Nat → Prop} {t o : Nat} (ho : P o) (hle : t ≤ o) :
    ∃ o', FirstFrom P t o' ∧ o' ≤ o := by
  classical
  have hex : ∃ k, P (t + k) := ⟨o - t, by rwa [Nat.add_sub_of_le hle]⟩
  have hmin : Nat.find hex ≤ o - t := Nat.find_min' hex (by rwa [Nat.add_sub_of_le hle])
  refine ⟨t + Nat.find hex, ⟨Nat.find_spec hex, Nat.le_add_right _ _, fun o' hlo hhi hP => ?_⟩,
    by omega⟩
  have hnot : ¬ P (t + (o' - t)) := Nat.find_min hex (by omega)
  rw [Nat.add_sub_of_le hlo] at hnot
  exact hnot hP

section Around

variable {P : Nat → Prop} {size n : Nat} {resume : Nat → Nat}

theorem FirstFrom.find?_eq [DecidablePred P] (hmod : ∀ o, P (o % size) ↔ P o) (hsize : 0 < size)
    {t o : Nat} (h : FirstFrom P t o) :
    ((List.range size).map (t + ·)).find? (fun o => decide (P o)) = some o :=
  find?_ring_eq hmod h.1 h.2.1 h.2.2 hsize

/-- What is met takes `n` positions to look at, and `resume` says where the search goes on:
in time for what is next. -/
def InTime (P : Nat → Prop) (n : Nat) (resume : Nat → Nat) : Prop :=
  ∀ o, P o → o + n ≤ resume (o + n) ∧ ∀ o', o + n ≤ o' → o' < resume (o + n) → ¬ P o'

/-- So nothing is missed. -/
theorem InTime.firstFrom (h : InTime P n resume) {o o' : Nat} (ho : P o)
    (hnext : FirstFrom P (o + n) o') : FirstFrom P (resume (o + n)) o' := by
  obtain ⟨hge, hnone⟩ := h o ho
  obtain ⟨ho', hle, hfirst⟩ := hnext
  refine ⟨ho', ?_, fun c hlo hhi => hfirst c (Nat.le_trans hge hlo) hhi⟩
  by_contra hlt
  exact hnone o' hle (Nat.lt_of_not_le hlt) ho'

/-- **The rule for a loop that looks at what it meets**: where it accepts what is at `o`, and
rejects what is in front of that, it ends there. -/
theorem InTime.search_rule (hn : 0 < n) (h : InTime P n resume) {σ : Type} {t₀ o : Nat} (ho : P o)
    (hapart : ∀ o', P o' → o' < o → o' + n ≤ o) {Q : Nat → Nat → σ → Prop}
    (haccept : ∀ fuel t s, t₀ ≤ t → FirstFrom P t o → Q (fuel + 1) t s)
    (hreject : ∀ fuel t s o', t₀ ≤ t → FirstFrom P t o' → o' < o →
      (∀ s', Q fuel (resume (o' + n)) s') → Q (fuel + 1) t s) :
    ∀ (fuel t : Nat) (s : σ), t₀ ≤ t → t ≤ o → o < t + fuel → Q fuel t s := by
  intro fuel
  induction fuel with
  | zero => exact fun t s _ hle hlt => absurd hlt (Nat.not_lt_of_le hle)
  | succ fuel ih =>
    intro t s ht₀ hle hlt
    obtain ⟨o', hfirst, hhi⟩ := exists_firstFrom ho hle
    rcases Nat.eq_or_lt_of_le hhi with rfl | hlt'
    · exact haccept fuel t s ht₀ hfirst
    · obtain ⟨ho', hlo, hnone⟩ := hfirst
      have hge := (h o' ho').1
      -- the search goes on between here and `o`
      obtain ⟨o'', hnext, hle''⟩ := exists_firstFrom ho (hapart o' ho' hlt')
      have hresume := (h.firstFrom ho' hnext).2.1
      exact hreject fuel t s o' ht₀ ⟨ho', hlo, hnone⟩ hlt' fun s' =>
        ih _ s' (by omega) (by omega) (by omega)

end Around

end FlashFloppyTestbed.Foundation
