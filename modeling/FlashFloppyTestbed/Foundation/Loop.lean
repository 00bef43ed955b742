/-
  Foundation/Loop.lean --- loops with fuel, and that they end.

  What has `fuel` fails where the fuel runs out.  `Settles f bound t` is that this is
  all that the fuel decides: `f` ends in `t` or fails, and does not fail with more
  than `bound`.  Settled parts compose (`Settles.bind`), and a loop that keeps an
  invariant and counts down settles (`whileLoop_settles`).
-/
import Mathlib.Init

set_option autoImplicit false

namespace FlashFloppyTestbed.Foundation

variable {σ τ : Type}

/-! ## Fuel -/

/-- With more fuel than `bound`, `f` ends in `t`; with less it does, or it fails. -/
structure Settles (f : Nat → Option σ) (bound : Nat) (t : σ) : Prop where
  enough : ∀ fuel, bound < fuel → f fuel = some t
  unique : ∀ fuel t', f fuel = some t' → t' = t

namespace Settles

variable {f : Nat → Option σ} {g : Nat → σ → Option τ} {bound bound' : Nat} {t : σ} {u : τ}

theorem pure (t : σ) : Settles (fun _ => some t) bound t where
  enough := fun _ _ => rfl
  unique := fun _ _ h => (Option.some.inj h).symm

theorem mono (h : Settles f bound t) (hle : bound ≤ bound') : Settles f bound' t where
  enough := fun fuel hfuel => h.enough fuel (Nat.lt_of_le_of_lt hle hfuel)
  unique := h.unique

theorem bind (h : Settles f bound t) (h' : Settles (fun fuel => g fuel t) bound u) :
    Settles (fun fuel => (f fuel).bind (g fuel)) bound u where
  enough := fun fuel hfuel => by
    rw [h.enough fuel hfuel, Option.bind_some]
    exact h'.enough fuel hfuel
  unique := fun fuel u' hu => by
    obtain ⟨t', ht', hg⟩ := Option.bind_eq_some_iff.mp hu
    rw [h.unique fuel t' ht'] at hg
    exact h'.unique fuel u' hg

theorem map (h : Settles f bound t) (r : σ → τ) :
    Settles (fun fuel => (f fuel).map r) bound (r t) where
  enough := fun fuel hfuel => by rw [h.enough fuel hfuel, Option.map_some]
  unique := fun fuel u' hu => by
    obtain ⟨t', ht', rfl⟩ := Option.map_eq_some_iff.mp hu
    rw [h.unique fuel t' ht']

end Settles

/-! ## Loops -/

/-- `while (c) body`. -/
def whileLoop (c : σ → Bool) (body : σ → σ) : Nat → σ → Option σ
  | 0, _ => none
  | fuel + 1, s => if c s then whileLoop c body fuel (body s) else some s

variable {c : σ → Bool} {f : σ → σ}

theorem whileLoop_exit {s : σ} (hs : c s = false) (bound : Nat) :
    Settles (fun fuel => whileLoop c f fuel s) bound s where
  enough := fun fuel hfuel => by
    obtain ⟨k, rfl⟩ : ∃ k, fuel = k + 1 := ⟨fuel - 1, by omega⟩
    simp [whileLoop, hs]
  unique := fun fuel t' h => by
    cases fuel with
    | zero => simp [whileLoop] at h
    | succ k => simpa [whileLoop, hs, eq_comm] using h

theorem whileLoop_step {s t : σ} {bound : Nat} (hs : c s = true)
    (h : Settles (fun fuel => whileLoop c f fuel (f s)) bound t) :
    Settles (fun fuel => whileLoop c f fuel s) (bound + 1) t where
  enough := fun fuel hfuel => by
    obtain ⟨k, rfl⟩ : ∃ k, fuel = k + 1 := ⟨fuel - 1, by omega⟩
    simp only [whileLoop, if_pos hs]
    exact h.enough k (by omega)
  unique := fun fuel t' ht' => by
    cases fuel with
    | zero => simp [whileLoop] at ht'
    | succ k =>
      simp only [whileLoop, if_pos hs] at ht'
      exact h.unique k t' ht'

/-- A loop that keeps `P` and makes `μ` smaller settles, where `P` holds and the
condition does not. -/
theorem whileLoop_settles {P : σ → Prop} (μ : σ → Nat)
    (hbody : ∀ s, P s → c s = true → P (f s) ∧ μ (f s) < μ s) {s : σ} (hs : P s) :
    ∃ t, P t ∧ c t = false ∧ Settles (fun fuel => whileLoop c f fuel s) (μ s) t := by
  obtain ⟨n, hn⟩ : ∃ n, n = μ s := ⟨_, rfl⟩
  induction n using Nat.strongRecOn generalizing s with
  | _ n ih =>
    cases hc : c s with
    | false => exact ⟨s, hs, hc, whileLoop_exit hc _⟩
    | true =>
      obtain ⟨hkeep, hless⟩ := hbody s hs hc
      obtain ⟨t, ht, hct, hend⟩ := ih (μ (f s)) (by omega) hkeep rfl
      exact ⟨t, ht, hct, (whileLoop_step hc hend).mono (by omega)⟩

/-- What the body keeps, the loop keeps. -/
theorem whileLoop_keeps {P : σ → Prop} (hbody : ∀ s, P s → P (f s)) : ∀ {fuel : Nat} {s t : σ},
    P s → whileLoop c f fuel s = some t → P t := by
  intro fuel
  induction fuel with
  | zero => exact fun _ h => nomatch h
  | succ fuel ih =>
    intro s t hs h
    rw [whileLoop] at h
    split at h
    · exact ih (hbody s hs) h
    · exact Option.some.inj h ▸ hs

end FlashFloppyTestbed.Foundation
