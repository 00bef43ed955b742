/-
  Foundation/Gaps.lean --- a bit string as the distances between its set bits.

  A run-length code sends one pulse per set bit: what travels is the list of gaps
  between consecutive set bits, the first one counted from the beginning.
  `gaps` takes a bit string apart and `ofGaps` puts it together again, up to the
  clear bits behind the last set one (`ofGaps_gaps`).
-/
import FlashFloppyTestbed.Foundation.Bits

set_option autoImplicit false

namespace FlashFloppyTestbed.Foundation

/-- The gaps of a bit string that continues `n` clear bits. -/
def gapsFrom : Nat → List Bool → List Nat
  | _, [] => []
  | n, false :: l => gapsFrom (n + 1) l
  | n, true :: l => (n + 1) :: gapsFrom 0 l

/-- The distance of every set bit from the one before it. -/
def gaps (l : List Bool) : List Nat := gapsFrom 0 l

/-- The clear bits at the end of a bit string that continues `n` clear bits. -/
def runFrom : Nat → List Bool → Nat
  | n, [] => n
  | n, false :: l => runFrom (n + 1) l
  | _, true :: l => runFrom 0 l

/-- A set bit at the end of a gap. -/
def gapBits (g : Nat) : List Bool := List.replicate (g - 1) false ++ [true]

/-- The bit string with the given gaps, up to its last set bit. -/
def ofGaps (gs : List Nat) : List Bool := gs.flatMap gapBits

@[simp] theorem ofGaps_nil : ofGaps [] = [] := rfl

@[simp] theorem ofGaps_cons (g : Nat) (gs : List Nat) :
    ofGaps (g :: gs) = gapBits g ++ ofGaps gs := rfl

@[simp] theorem ofGaps_append (gs gs' : List Nat) :
    ofGaps (gs ++ gs') = ofGaps gs ++ ofGaps gs' := List.flatMap_append

theorem length_gapBits {g : Nat} (h : 0 < g) : (gapBits g).length = g := by
  simp [gapBits]
  omega

theorem gapsFrom_append (l₁ l₂ : List Bool) : ∀ n,
    gapsFrom n (l₁ ++ l₂) = gapsFrom n l₁ ++ gapsFrom (runFrom n l₁) l₂ := by
  induction l₁ with
  | nil => exact fun _ => rfl
  | cons b l₁ ih =>
    intro n
    cases b with
    | false => exact ih (n + 1)
    | true => exact congrArg ((n + 1) :: ·) (ih 0)

/-- The front of a bit string has the first of its gaps. -/
theorem gaps_take (l : List Bool) (n : Nat) : gaps (l.take n) <+: gaps l := by
  refine ⟨gapsFrom (runFrom 0 (l.take n)) (l.drop n), ?_⟩
  rw [gaps, gaps, ← gapsFrom_append, List.take_append_drop]

/-- Clear bits in front of a bit string lengthen its first gap only. -/
theorem gapsFrom_add (l : List Bool) : ∀ n k,
    gapsFrom (n + k) l = (gapsFrom n l).modifyHead (· + k) := by
  induction l with
  | nil => exact fun _ _ => rfl
  | cons b l ih =>
    intro n k
    cases b with
    | false =>
      rw [gapsFrom, gapsFrom, Nat.add_right_comm, ih]
    | true =>
      rw [gapsFrom, gapsFrom, List.modifyHead_cons, Nat.add_right_comm]

theorem pos_of_mem_gapsFrom {g : Nat} (l : List Bool) : ∀ n, g ∈ gapsFrom n l → 0 < g := by
  induction l with
  | nil => intro n h; cases h
  | cons b l ih =>
    intro n h
    cases b with
    | false => exact ih (n + 1) h
    | true =>
      rcases List.mem_cons.mp h with rfl | h
      · exact Nat.succ_pos n
      · exact ih 0 h

theorem ofGaps_gapsFrom (l : List Bool) : ∀ n, ∃ r,
    List.replicate n false ++ l = ofGaps (gapsFrom n l) ++ List.replicate r false := by
  induction l with
  | nil => intro n; exact ⟨n, by simp [gapsFrom]⟩
  | cons b l ih =>
    intro n
    cases b with
    | false =>
      obtain ⟨r, hr⟩ := ih (n + 1)
      refine ⟨r, ?_⟩
      rw [gapsFrom, ← hr, List.replicate_succ']
      simp
    | true =>
      obtain ⟨r, hr⟩ := ih 0
      refine ⟨r, ?_⟩
      rw [gapsFrom, ofGaps_cons, List.append_assoc, ← hr]
      simp [gapBits]

/-- A bit string is put together again from its gaps, but for clear bits at its end. -/
theorem ofGaps_gaps (l : List Bool) : ∃ r, l = ofGaps (gaps l) ++ List.replicate r false := by
  simpa [gaps] using ofGaps_gapsFrom l 0

theorem gapsFrom_gapBits_append {g : Nat} (hg : 0 < g) (l : List Bool) (n : Nat) :
    gapsFrom n (gapBits g ++ l) = (n + g) :: gapsFrom 0 l := by
  obtain ⟨k, rfl⟩ : ∃ k, g = k + 1 := ⟨g - 1, by omega⟩
  rw [gapBits, Nat.add_sub_cancel]
  clear hg
  induction k generalizing n with
  | zero => rfl
  | succ k ih =>
    rw [List.replicate_succ, List.cons_append, List.cons_append, gapsFrom, ih (n + 1)]
    congr 1
    omega

/-- Gaps are found again in the bit string they make. -/
theorem gaps_ofGaps {gs : List Nat} (h : ∀ g ∈ gs, 0 < g) : gaps (ofGaps gs) = gs := by
  rw [gaps]
  induction gs with
  | nil => rfl
  | cons g gs ih =>
    rw [ofGaps_cons, gapsFrom_gapBits_append (h g List.mem_cons_self), Nat.zero_add,
      ih fun g' hg' => h g' (List.mem_cons_of_mem g hg')]

/-- A clear bit between set bits needs a gap of two. -/
theorem exists_two_le_of_false_mem {gs : List Nat} (h : false ∈ ofGaps gs) : ∃ g ∈ gs, 2 ≤ g := by
  obtain ⟨g, hg, hfalse⟩ := List.mem_flatMap.mp h
  refine ⟨g, hg, ?_⟩
  by_contra hlt
  have hz : g - 1 = 0 := by omega
  simp [gapBits, hz] at hfalse

/-- Inside a gap, a bit string ends with a clear bit. -/
theorem gapBits_take {g n : Nat} (hn : n < g) : (gapBits g).take n = List.replicate n false := by
  rw [gapBits, List.take_append_of_le_length (by simp; omega), List.take_replicate]
  congr 1
  omega

end FlashFloppyTestbed.Foundation
