/-
  Foundation/Run.lean --- runs of a transition system, and the induction every
  invariant proof goes through.

  A run is the reflexive transitive closure `Relation.ReflTransGen step`.  Where a
  function makes the steps, `Path` is a run that says what it goes through, and where
  they are the operations of a list, `Along` is what holds behind each of them.
-/
import Mathlib.Logic.Function.Iterate
import Mathlib.Logic.Relation

set_option autoImplicit false

namespace FlashFloppyTestbed.Foundation

variable {σ : Type} {step : σ → σ → Prop}

/-- What every step preserves, every run preserves. -/
theorem run_invariant {P : σ → Prop} (hstep : ∀ s t, step s t → P s → P t) {s t : σ}
    (hrun : Relation.ReflTransGen step s t) (hs : P s) : P t := by
  induction hrun with
  | refl => exact hs
  | tail _ hlast ih => exact hstep _ _ hlast ih

/-! ## Runs that end -/

/-- A run of `n` steps. -/
inductive Steps (step : σ → σ → Prop) : Nat → σ → σ → Prop where
  | zero (s : σ) : Steps step 0 s s
  | succ {n : Nat} {s t u : σ} (hstep : step s t) (h : Steps step n t u) : Steps step (n + 1) s u

/-- **Steps that make something smaller** come to an end: where `P` is kept and `μ` goes
down, a run is no longer than `μ` was. -/
theorem Steps.le {P : σ → Prop} (μ : σ → Nat)
    (hstep : ∀ s t, P s → step s t → P t ∧ μ t < μ s) {n : Nat} {s t : σ}
    (hrun : Steps step n s t) (hs : P s) : P t ∧ n + μ t ≤ μ s := by
  induction hrun with
  | zero => exact ⟨hs, Nat.le_of_eq (Nat.zero_add _)⟩
  | succ hfirst _ ih =>
    obtain ⟨hkeep, hless⟩ := hstep _ _ hs hfirst
    obtain ⟨hend, hle⟩ := ih hkeep
    exact ⟨hend, by omega⟩

/-! ## Runs of a function -/

/-- `f`, applied again and again from `s` on, gets to `t`; what comes before `t` has `P`. -/
inductive Path (f : σ → σ) (P : σ → Prop) : σ → σ → Prop where
  | here (s : σ) : Path f P s s
  | step {s t : σ} (hs : P s) (h : Path f P (f s) t) : Path f P s t

namespace Path

variable {f : σ → σ} {P Q : σ → Prop} {s t u : σ}

theorem trans (h : Path f P s t) (h' : Path f P t u) : Path f P s u := by
  induction h with
  | here => exact h'
  | step hs _ ih => exact .step hs (ih h')

theorem mono (h : Path f P s t) (hPQ : ∀ s, P s → Q s) : Path f Q s t := by
  induction h with
  | here => exact .here _
  | step hs _ ih => exact .step (hPQ _ hs) ih

theorem exists_iterate (h : Path f P s t) : ∃ n, f^[n] s = t := by
  induction h with
  | here => exact ⟨0, rfl⟩
  | step _ _ ih =>
    obtain ⟨n, hn⟩ := ih
    exact ⟨n + 1, hn⟩

/-- A path to a fixed point holds all that is ever reached. -/
theorem iterate (h : Path f P s t) (hfix : f t = t) (n : Nat) : P (f^[n] s) ∨ f^[n] s = t := by
  induction h generalizing n with
  | here => exact .inr (Function.iterate_fixed hfix n)
  | step hs _ ih =>
    cases n with
    | zero => exact .inl hs
    | succ n => exact ih hfix n

end Path

/-! ## Runs of a list of operations -/

section Along

variable {α γ : Type} {f : σ → α → σ} {P I : σ → Prop}

/-- `P` holds at the start, and behind each of the operations. -/
def Along (f : σ → α → σ) (P : σ → Prop) (s : σ) : List α → Prop
  | [] => P s
  | x :: xs => P s ∧ Along f P (f s x) xs

theorem along_append {xs ys : List α} (s : σ) (h : Along f P s xs)
    (h' : Along f P (xs.foldl f s) ys) : Along f P s (xs ++ ys) := by
  induction xs generalizing s with
  | nil => exact h'
  | cons x xs ih => exact ⟨h.1, ih _ h.2 h'⟩

/-- What holds along a list holds behind each beginning of it. -/
theorem Along.of_isPrefix {xs ys : List α} {s : σ} (h : Along f P s xs) (hys : ys <+: xs) :
    P (ys.foldl f s) := by
  induction xs generalizing s ys with
  | nil =>
    rw [List.prefix_nil.mp hys]
    exact h
  | cons x xs ih =>
    rcases List.prefix_cons_iff.mp hys with rfl | ⟨zs, rfl, hzs⟩
    · exact h.1
    · rw [List.foldl_cons]
      exact ih h.2 hzs

/-- **Calls** that each keep an invariant, with `P` along their operations: so does a run
of them. -/
theorem along_flatMap {ops : γ → List α}
    (hcall : ∀ s c, I s → Along f P s (ops c) ∧ I ((ops c).foldl f s)) (hP : ∀ s, I s → P s)
    {s : σ} (hs : I s) (cs : List γ) :
    Along f P s (cs.flatMap ops) ∧ I ((cs.flatMap ops).foldl f s) := by
  induction cs generalizing s with
  | nil => exact ⟨hP s hs, hs⟩
  | cons c cs ih =>
    obtain ⟨halong, hkeep⟩ := hcall s c hs
    obtain ⟨hrest, hend⟩ := ih hkeep
    rw [List.flatMap_cons, List.foldl_append]
    exact ⟨along_append s halong hrest, hend⟩

end Along

end FlashFloppyTestbed.Foundation
