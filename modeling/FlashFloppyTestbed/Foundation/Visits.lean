/-
  Foundation/Visits.lean --- the positions that a repeated search meets.

  `find t` is where a search from `t` on ends, and the one after it starts at
  `next` of that position.  Searches move forward, so that no position is met
  twice, and a loop that counts the positions of some kind in front of `stop`
  counts a set (`CountLoop.count`).
-/
import Mathlib.Data.Set.Card

set_option autoImplicit false

namespace FlashFloppyTestbed.Foundation

/-- The positions that repeated searches from `t` on meet. -/
inductive Visits (find : Nat → Option Nat) (next : Nat → Nat) : Nat → Nat → Prop where
  | here {t o : Nat} : find t = some o → Visits find next t o
  | later {t o o' : Nat} : find t = some o → Visits find next (next o) o' → Visits find next t o'

variable {find : Nat → Option Nat} {next : Nat → Nat} {t o o' : Nat}

theorem visits_iff (h : find t = some o) :
    Visits find next t o' ↔ o' = o ∨ Visits find next (next o) o' := by
  constructor
  · intro hvisit
    cases hvisit with
    | here h' => exact .inl (Option.some.inj (h'.symm.trans h))
    | later h' hrest =>
      obtain rfl := Option.some.inj (h'.symm.trans h)
      exact .inr hrest
  · rintro (rfl | hrest)
    · exact .here h
    · exact .later h hrest

/-- A search that meets another position counts nothing. -/
theorem ncard_visits_miss {P : Nat → Prop} {stop : Nat} (h : find t = some o) (hP : ¬ P o) :
    {o' | Visits find next t o' ∧ o' < stop ∧ P o'}.ncard =
      {o' | Visits find next (next o) o' ∧ o' < stop ∧ P o'}.ncard := by
  congr 1
  ext o'
  rw [Set.mem_ofPred_eq, Set.mem_ofPred_eq, visits_iff h, or_and_right]
  refine or_iff_right ?_
  rintro ⟨rfl, -, hP'⟩
  exact hP hP'

section Count

variable (hfind : ∀ t o, find t = some o → t ≤ o) (hnext : ∀ o, o < next o)
include hfind hnext

/-- Searches move forward. -/
theorem Visits.le (h : Visits find next t o) : t ≤ o := by
  induction h with
  | here h => exact hfind _ _ h
  | later h _ ih => exact (hfind _ _ h).trans ((Nat.le_of_lt (hnext _)).trans ih)

/-- A search that ends at `stop` or behind it is the last. -/
theorem ncard_visits_stop {P : Nat → Prop} {stop : Nat} (h : find t = some o) (hstop : stop ≤ o) :
    {o' | Visits find next t o' ∧ o' < stop ∧ P o'}.ncard = 0 := by
  have hempty : {o' | Visits find next t o' ∧ o' < stop ∧ P o'} = ∅ := by
    rw [Set.eq_empty_iff_forall_notMem]
    rintro o' ⟨hvisit, hlt, -⟩
    rcases (visits_iff h).mp hvisit with rfl | hrest
    · omega
    · have hle := hrest.le hfind hnext
      have hfwd := hnext o
      omega
  rw [hempty, Set.ncard_empty]

/-- A search that meets a position of the kind counts one. -/
theorem ncard_visits_hit {P : Nat → Prop} {stop : Nat} (h : find t = some o) (hlt : o < stop)
    (hP : P o) :
    {o' | Visits find next t o' ∧ o' < stop ∧ P o'}.ncard =
      {o' | Visits find next (next o) o' ∧ o' < stop ∧ P o'}.ncard + 1 := by
  have hinsert : {o' | Visits find next t o' ∧ o' < stop ∧ P o'} =
      insert o {o' | Visits find next (next o) o' ∧ o' < stop ∧ P o'} := by
    ext o'
    rw [Set.mem_insert_iff, Set.mem_ofPred_eq, Set.mem_ofPred_eq, visits_iff h, or_and_right]
    refine or_congr_left ⟨fun h => h.1, ?_⟩
    rintro rfl
    exact ⟨rfl, hlt, hP⟩
  have hfresh : o ∉ {o' | Visits find next (next o) o' ∧ o' < stop ∧ P o'} := by
    rintro ⟨hvisit, -⟩
    have hle := hvisit.le hfind hnext
    have hfwd := hnext o
    omega
  have hfinite : {o' | Visits find next (next o) o' ∧ o' < stop ∧ P o'}.Finite :=
    (Set.finite_lt_nat stop).subset fun _ h => h.2.1
  rw [hinsert, Set.ncard_insert_of_notMem hfresh hfinite]

end Count

/-! ## Counting -/

section Loop

variable {σ β : Type}

/-- What one pass of a loop does that searches from `t` on, has counted `i` positions with
`P` and has stored something for the first `max` of them: it meets such a position, or
another one, or none in front of `stop`. -/
structure CountLoop (find : Nat → Option Nat) (next : Nat → Nat) (P : Nat → Prop) (stop max : Nat)
    (loop : Nat → Nat → σ → Nat → List β → Option (Nat × List β)) : Prop where
  forward : ∀ {t o}, find t = some o → t ≤ o
  moves : ∀ o, o < next o
  empty : ∀ t s i info, loop 0 t s i info = none
  search : ∀ {fuel t s i info r}, loop (fuel + 1) t s i info = some r → ∃ o, find t = some o
  hit : ∀ {t o} fuel s i info, find t = some o → o < stop → P o →
    ∃ s' x, loop (fuel + 1) t s i info =
      loop fuel (next o) s' (i + 1) (if i < max then info ++ [x] else info)
  miss : ∀ {t o} fuel s i info, find t = some o → o < stop → ¬ P o →
    ∃ s', loop (fuel + 1) t s i info = loop fuel (next o) s' i info
  last : ∀ {t o} fuel s i info, find t = some o → stop ≤ o →
    loop (fuel + 1) t s i info = some (i, info)

/-- Storing an entry keeps the array as long as the count allows. -/
theorem length_info {info : List β} {i max : Nat} (x : β) (h : info.length = min i max) :
    (if i < max then info ++ [x] else info).length = min (i + 1) max := by
  split
  · rw [List.length_append, List.length_singleton]
    omega
  · omega

variable {P : Nat → Prop} {stop max : Nat}
  {loop : Nat → Nat → σ → Nat → List β → Option (Nat × List β)}

/-- **The loop counts the positions with `P`** that are met in front of `stop`, and has
stored as many entries as the array takes. -/
theorem CountLoop.count (h : CountLoop find next P stop max loop) :
    ∀ (fuel t : Nat) (s : σ) (i : Nat) (info : List β) (r : Nat × List β),
      info.length = min i max → loop fuel t s i info = some r →
      r.1 = i + {o | Visits find next t o ∧ o < stop ∧ P o}.ncard ∧
        r.2.length = min r.1 max := by
  have hfind : ∀ t o, find t = some o → t ≤ o := fun _ _ => h.forward
  intro fuel
  induction fuel with
  | zero =>
    intro t s i info r _ hr
    rw [h.empty] at hr
    cases hr
  | succ fuel ih =>
    intro t s i info r hinfo hr
    obtain ⟨o, ho⟩ := h.search hr
    rcases Nat.lt_or_ge o stop with hlt | hge
    · by_cases hP : P o
      · obtain ⟨s', x, hloop⟩ := h.hit fuel s i info ho hlt hP
        rw [hloop] at hr
        obtain ⟨hcount, hlen⟩ := ih _ _ _ _ _ (length_info x hinfo) hr
        refine ⟨?_, hlen⟩
        rw [hcount, ncard_visits_hit hfind h.moves ho hlt hP]
        omega
      · obtain ⟨s', hloop⟩ := h.miss fuel s i info ho hlt hP
        rw [hloop] at hr
        obtain ⟨hcount, hlen⟩ := ih _ _ _ _ _ hinfo hr
        exact ⟨by rw [hcount, ncard_visits_miss ho hP], hlen⟩
    · rw [h.last fuel s i info ho hge] at hr
      obtain rfl := Option.some.inj hr
      rw [ncard_visits_stop hfind h.moves ho hge]
      exact ⟨rfl, hinfo⟩

/-- **The loop ends**, if there is always anything to find. -/
theorem CountLoop.returns (h : CountLoop find next P stop max loop)
    (hfound : ∀ t, ∃ o, find t = some o) : ∀ (fuel t : Nat) (s : σ) (i : Nat) (info : List β),
      stop ≤ t + fuel → ∃ r, loop (fuel + 1) t s i info = some r := by
  intro fuel
  induction fuel with
  | zero =>
    intro t s i info hfuel
    obtain ⟨o, ho⟩ := hfound t
    exact ⟨_, h.last 0 s i info ho (hfuel.trans (h.forward ho))⟩
  | succ fuel ih =>
    intro t s i info hfuel
    obtain ⟨o, ho⟩ := hfound t
    have hle := h.forward ho
    have hnext := h.moves o
    rcases Nat.lt_or_ge o stop with hlt | hge
    · by_cases hP : P o
      · obtain ⟨s', x, hloop⟩ := h.hit (fuel + 1) s i info ho hlt hP
        rw [hloop]
        exact ih _ _ _ _ (by omega)
      · obtain ⟨s', hloop⟩ := h.miss (fuel + 1) s i info ho hlt hP
        rw [hloop]
        exact ih _ _ _ _ (by omega)
    · exact ⟨_, h.last (fuel + 1) s i info ho hge⟩

end Loop

end FlashFloppyTestbed.Foundation
