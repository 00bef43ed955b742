/-
  Foundation/Transducer.lean --- transducers that can be stopped and resumed.

  A transducer reads a list of inputs one at a time, keeps a state, and emits at
  most one output per input.  `emit` is one uninterrupted pass.  `emitUpTo` is
  the pass a producer with a bounded output buffer makes: it stops right after
  the output that fills the buffer, and returns what a later call needs in order
  to carry on.

  The facts a caller uses are `emitUpTo_emit` (a chunk followed by a full pass
  over what the chunk left is the full pass), `emitUpTo_spec` (a chunk is short
  only when the input ran out) and `emitUpTo_append` (a chunk over a
  concatenation is a chunk over the first part, continued unless it filled up).
-/
import Mathlib.Data.List.Basic
import Mathlib.Tactic.Common

set_option autoImplicit false

namespace FlashFloppyTestbed.Foundation

variable {σ β γ : Type} (step : σ → β → σ × Option γ)

/-- One uninterrupted pass over the inputs. -/
def emit (s : σ) : List β → List γ
  | [] => []
  | b :: l => (step s b).2.toList ++ emit (step s b).1 l

/-- What a bounded pass returns: its outputs, and where it stopped. -/
structure Chunk (σ β γ : Type) where
  /-- The outputs, in order. -/
  out : List γ
  /-- The state behind the last input read. -/
  state : σ
  /-- The inputs not read. -/
  rest : List β
  /-- The room left in the output buffer. -/
  todo : Nat

/-- A pass that stops right after its `n`-th output, for `0 < n`. -/
def emitUpTo : Nat → σ → List β → Chunk σ β γ
  | n, s, [] => ⟨[], s, [], n⟩
  | n, s, b :: l =>
      match step s b with
      | (s', none) => emitUpTo n s' l
      | (s', some c) =>
          if n - 1 = 0 then ⟨[c], s', l, 0⟩
          else
            let r := emitUpTo (n - 1) s' l
            { r with out := c :: r.out }

@[simp] theorem emit_nil (s : σ) : emit step s [] = [] := rfl

theorem emit_cons_none {s s' : σ} {b : β} (h : step s b = (s', none)) (l : List β) :
    emit step s (b :: l) = emit step s' l := by
  simp [emit, h]

theorem emit_cons_some {s s' : σ} {b : β} {c : γ} (h : step s b = (s', some c)) (l : List β) :
    emit step s (b :: l) = c :: emit step s' l := by
  simp [emit, h]

@[simp] theorem emitUpTo_nil (n : Nat) (s : σ) : emitUpTo step n s [] = ⟨[], s, [], n⟩ := by
  rw [emitUpTo]

theorem emitUpTo_cons_none {s s' : σ} {b : β} (h : step s b = (s', none)) (n : Nat)
    (l : List β) : emitUpTo step n s (b :: l) = emitUpTo step n s' l := by
  rw [emitUpTo, h]

theorem emitUpTo_cons_last {s s' : σ} {b : β} {c : γ} (h : step s b = (s', some c))
    (l : List β) : emitUpTo step 1 s (b :: l) = ⟨[c], s', l, 0⟩ := by
  rw [emitUpTo, h]
  rfl

theorem emitUpTo_cons_some {s s' : σ} {b : β} {c : γ} (h : step s b = (s', some c)) (n : Nat)
    (l : List β) : emitUpTo step (n + 2) s (b :: l) =
      { emitUpTo step (n + 1) s' l with out := c :: (emitUpTo step (n + 1) s' l).out } := by
  rw [emitUpTo, h]
  rfl

/-- A chunk, followed by a full pass over what it left, is the full pass. -/
theorem emitUpTo_emit (l : List β) : ∀ (n : Nat) (s : σ), 0 < n →
    (emitUpTo step n s l).out ++ emit step (emitUpTo step n s l).state (emitUpTo step n s l).rest =
      emit step s l := by
  induction l with
  | nil => intro n s _; simp
  | cons b l ih =>
    intro n s hn
    rcases hstep : step s b with ⟨s', _ | c⟩
    · rw [emitUpTo_cons_none step hstep, emit_cons_none step hstep]
      exact ih n s' hn
    · rw [emit_cons_some step hstep]
      obtain rfl | ⟨k, rfl⟩ : n = 1 ∨ ∃ k, n = k + 2 := by
        rcases n with _ | _ | k
        · omega
        · exact Or.inl rfl
        · exact Or.inr ⟨k, rfl⟩
      · rw [emitUpTo_cons_last step hstep]
        simp
      · rw [emitUpTo_cons_some step hstep, List.cons_append, ih (k + 1) s' (by omega)]

/-- What a chunk did: it filled its buffer or read everything, and it read a
prefix of the inputs. -/
theorem emitUpTo_spec (l : List β) : ∀ (n : Nat) (s : σ), 0 < n →
    (emitUpTo step n s l).out.length + (emitUpTo step n s l).todo = n ∧
      (0 < (emitUpTo step n s l).todo → (emitUpTo step n s l).rest = []) ∧
      (emitUpTo step n s l).rest <:+ l := by
  induction l with
  | nil => intro n s _; simp
  | cons b l ih =>
    intro n s hn
    rcases hstep : step s b with ⟨s', _ | c⟩
    · rw [emitUpTo_cons_none step hstep]
      obtain ⟨h₁, h₂, h₃⟩ := ih n s' hn
      exact ⟨h₁, h₂, h₃.trans (List.suffix_cons b l)⟩
    · rcases n with _ | _ | k
      · omega
      · rw [emitUpTo_cons_last step hstep]
        simp
      · rw [emitUpTo_cons_some step hstep]
        obtain ⟨h₁, h₂, h₃⟩ := ih (k + 1) s' (by omega)
        refine ⟨?_, h₂, h₃.trans (List.suffix_cons b l)⟩
        simp only [List.length_cons]
        omega

/-- The state behind the inputs. -/
def stateAfter (s : σ) (l : List β) : σ := l.foldl (fun s b => (step s b).1) s

@[simp] theorem stateAfter_nil (s : σ) : stateAfter step s [] = s := rfl

@[simp] theorem stateAfter_cons (s : σ) (b : β) (l : List β) :
    stateAfter step s (b :: l) = stateAfter step (step s b).1 l := rfl

theorem stateAfter_append (s : σ) (l₁ l₂ : List β) :
    stateAfter step s (l₁ ++ l₂) = stateAfter step (stateAfter step s l₁) l₂ :=
  List.foldl_append

theorem emit_append (l₁ l₂ : List β) : ∀ s : σ,
    emit step s (l₁ ++ l₂) = emit step s l₁ ++ emit step (stateAfter step s l₁) l₂ := by
  induction l₁ with
  | nil => exact fun _ => rfl
  | cons b l₁ ih =>
    intro s
    rw [List.cons_append, emit, emit, ih, stateAfter_cons, List.append_assoc]

/-- A chunk is a full pass over the inputs it read. -/
theorem emitUpTo_read (l : List β) : ∀ (n : Nat) (s : σ), 0 < n →
    ∃ read, l = read ++ (emitUpTo step n s l).rest ∧
      (emitUpTo step n s l).out = emit step s read ∧
      (emitUpTo step n s l).state = stateAfter step s read := by
  induction l with
  | nil => exact fun n s _ => ⟨[], by simp⟩
  | cons b l ih =>
    intro n s hn
    rcases hstep : step s b with ⟨s', _ | c⟩
    · obtain ⟨read, hl, hout, hstate⟩ := ih n s' hn
      rw [emitUpTo_cons_none step hstep]
      refine ⟨b :: read, congrArg (b :: ·) hl, ?_, ?_⟩
      · rw [hout, emit_cons_none step hstep]
      · rw [hstate, stateAfter_cons, hstep]
    · rcases n with _ | _ | k
      · omega
      · rw [emitUpTo_cons_last step hstep]
        refine ⟨[b], rfl, ?_, ?_⟩
        · rw [emit_cons_some step hstep, emit_nil]
        · rw [stateAfter_cons, hstep, stateAfter_nil]
      · obtain ⟨read, hl, hout, hstate⟩ := ih (k + 1) s' (Nat.succ_pos k)
        rw [emitUpTo_cons_some step hstep]
        refine ⟨b :: read, congrArg (b :: ·) hl, ?_, ?_⟩
        · rw [hout, emit_cons_some step hstep]
        · rw [hstate, stateAfter_cons, hstep]

/-- A pass emits at most one output per input. -/
theorem length_emit_le (l : List β) : ∀ s : σ, (emit step s l).length ≤ l.length := by
  induction l with
  | nil => intro s; simp
  | cons b l ih =>
    intro s
    have hopt : (step s b).2.toList.length ≤ 1 := by cases (step s b).2 <;> simp
    have := ih (step s b).1
    simp only [emit, List.length_append, List.length_cons]
    omega

/-- A buffer that cannot fill up does not cut the pass short. -/
theorem emitUpTo_out_of_length_lt {l : List β} {n : Nat} {s : σ} (h : l.length < n) :
    (emitUpTo step n s l).out = emit step s l := by
  have hemit := emitUpTo_emit step l n s (by omega)
  obtain ⟨hlen, hrest, _⟩ := emitUpTo_spec step l n s (by omega)
  have hle := length_emit_le step l s
  rw [← hemit, List.length_append] at hle
  rw [hrest (by omega), emit_nil, List.append_nil] at hemit
  exact hemit

/-- A chunk is empty only when nothing was left to emit. -/
theorem emit_eq_nil_of_out_eq_nil {l : List β} {n : Nat} {s : σ} (hn : 0 < n)
    (h : (emitUpTo step n s l).out = []) : emit step s l = [] := by
  obtain ⟨hlen, hrest, _⟩ := emitUpTo_spec step l n s hn
  have htodo : (emitUpTo step n s l).rest = [] := hrest (by rw [h, List.length_nil] at hlen; omega)
  rw [← emitUpTo_emit step l n s hn, h, htodo]
  rfl

/-- A chunk over a concatenation: the first part, then the second unless the
buffer filled up before. -/
theorem emitUpTo_append (l₁ : List β) : ∀ (n : Nat) (s : σ) (l₂ : List β), 0 < n →
    emitUpTo step n s (l₁ ++ l₂) =
      if (emitUpTo step n s l₁).todo = 0 then
        { emitUpTo step n s l₁ with rest := (emitUpTo step n s l₁).rest ++ l₂ }
      else
        let r := emitUpTo step (emitUpTo step n s l₁).todo (emitUpTo step n s l₁).state l₂
        { r with out := (emitUpTo step n s l₁).out ++ r.out } := by
  induction l₁ with
  | nil => intro n s l₂ hn; simp [Nat.pos_iff_ne_zero.mp hn]
  | cons b l ih =>
    intro n s l₂ hn
    rw [List.cons_append]
    rcases hstep : step s b with ⟨s', _ | c⟩
    · rw [emitUpTo_cons_none step hstep, emitUpTo_cons_none step hstep]
      exact ih n s' l₂ hn
    · rcases n with _ | _ | k
      · omega
      · rw [emitUpTo_cons_last step hstep, emitUpTo_cons_last step hstep]
        simp
      · rw [emitUpTo_cons_some step hstep, emitUpTo_cons_some step hstep,
          ih (k + 1) s' l₂ (by omega)]
        by_cases hz : (emitUpTo step (k + 1) s' l).todo = 0
        · simp [hz]
        · simp [hz]

end FlashFloppyTestbed.Foundation
