/-
  Strings.lean --- the comparisons of `src/util.c`, and `strcpy`.

  `memcmp` and `strncmp` return the difference of the first two bytes that differ, so
  that their sign is the lexicographic order (`memcmp_neg_iff`, `strncmp_neg_iff`).
  A string that is compared with a terminated one need not be terminated itself
  (`strncmp_eq_zero_iff`).

  `size_t` counts down to zero from at most 2^32 - 1; `fuel` bounds the turns of
  `strcpy`, whose source has to end.
-/
import FlashFloppyTestbed.FormatRun
import FlashFloppyTestbed.Memmove

set_option autoImplicit false

namespace FlashFloppyTestbed

/-! ## The code -/

/-- `memcmp`. -/
def memcmp (m : Mem) (s₁ s₂ : Nat) : Nat → Int
  | 0 => 0
  | n + 1 =>
    let diff : Int := (m s₁).toNat - (m s₂).toNat
    if diff ≠ 0 then diff else memcmp m (s₁ + 1) (s₂ + 1) n

/-- `strncmp`. -/
def strncmp (m : Mem) (s₁ s₂ : Nat) : Nat → Int
  | 0 => 0
  | n + 1 =>
    let diff : Int := (m s₁).toNat - (m s₂).toNat
    if diff ≠ 0 ∨ m s₁ = 0 then diff else strncmp m (s₁ + 1) (s₂ + 1) n

/-- `strcmp`. -/
def strcmp (m : Mem) (s₁ s₂ : Nat) : Int := strncmp m s₁ s₂ (2 ^ 32 - 1)

/-- `strcpy`, as far as the memory is concerned. -/
def strcpy : Nat → Mem → Nat → Nat → Option Mem
  | 0, _, _, _ => none
  | fuel + 1, m, p, q =>
    let c := m q
    let m := m.st8 p c
    if c ≠ 0 then strcpy fuel m (p + 1) (q + 1) else some m

/-! ## Comparisons -/

theorem diff_eq_zero_iff (x y : Byte) : (x.toNat : Int) - y.toNat = 0 ↔ x = y := by
  rw [Int.sub_eq_zero, Int.natCast_inj, BitVec.toNat_inj]

theorem diff_neg_iff (x y : Byte) : (x.toNat : Int) - y.toNat < 0 ↔ x < y := by
  rw [BitVec.lt_def]
  omega

/-- **`memcmp`** is 0 for equal blocks only. -/
theorem memcmp_eq_zero_iff (m : Mem) (n : Nat) : ∀ s₁ s₂,
    memcmp m s₁ s₂ n = 0 ↔ m.bytes s₁ n = m.bytes s₂ n := by
  induction n with
  | zero => exact fun _ _ => ⟨fun _ => rfl, fun _ => rfl⟩
  | succ n ih =>
    intro s₁ s₂
    rw [memcmp, Mem.bytes_succ, Mem.bytes_succ, List.cons.injEq, ← ih]
    by_cases h : m s₁ = m s₂
    · rw [if_neg (not_not.mpr ((diff_eq_zero_iff _ _).mpr h))]
      exact ⟨fun hrest => ⟨h, hrest⟩, fun hrest => hrest.2⟩
    · have hne := (diff_eq_zero_iff (m s₁) (m s₂)).not.mpr h
      rw [if_pos hne]
      exact ⟨fun hzero => absurd hzero hne, fun hsame => absurd hsame.1 h⟩

/-- Its sign is the lexicographic order. -/
theorem memcmp_neg_iff (m : Mem) (n : Nat) : ∀ s₁ s₂,
    memcmp m s₁ s₂ n < 0 ↔ m.bytes s₁ n < m.bytes s₂ n := by
  induction n with
  | zero =>
    exact fun _ _ => ⟨fun h => absurd h (Int.lt_irrefl 0), fun h => absurd h (List.not_lt_nil _)⟩
  | succ n ih =>
    intro s₁ s₂
    rw [memcmp, Mem.bytes_succ, Mem.bytes_succ, List.cons_lt_cons_iff, ← ih]
    by_cases h : m s₁ = m s₂
    · rw [if_neg (not_not.mpr ((diff_eq_zero_iff _ _).mpr h)), h]
      simp [BitVec.lt_irrefl]
    · rw [if_pos ((diff_eq_zero_iff (m s₁) (m s₂)).not.mpr h), diff_neg_iff]
      simp [h]

/-- **`strncmp`** with a terminated string: the other one is the same, as far as it is looked
at. -/
theorem strncmp_eq_zero_iff {m : Mem} {b : List Byte} (hb : 0 ∉ b) : ∀ {n s₁ s₂ : Nat},
    m.Holds s₂ b → b.length < n → (strncmp m s₁ s₂ n = 0 ↔ m.Holds s₁ b) := by
  induction b with
  | nil =>
    intro n s₁ s₂ hholds hn
    obtain ⟨n, rfl⟩ : ∃ k, n = k + 1 := ⟨n - 1, by omega⟩
    rw [Mem.holds_nil] at hholds ⊢
    have hdiff := diff_eq_zero_iff (m s₁) (m s₂)
    rw [hholds] at hdiff
    rw [strncmp, hholds]
    by_cases h : m s₁ = 0
    · rw [if_pos (.inr h)]
      exact hdiff
    · rw [if_pos (.inl (hdiff.not.mpr h))]
      exact hdiff
  | cons c b ih =>
    intro n s₁ s₂ hholds hn
    rw [List.length_cons] at hn
    obtain ⟨n, rfl⟩ : ∃ k, n = k + 1 := ⟨n - 1, by omega⟩
    obtain ⟨hc, hrest⟩ := Mem.holds_cons.mp hholds
    rw [List.mem_cons, not_or] at hb
    rw [Mem.holds_cons, strncmp, hc]
    by_cases h : m s₁ = c
    · have hgo : ¬ (((m s₁).toNat : Int) - c.toNat ≠ 0 ∨ m s₁ = 0) := by
        rintro (hne | hzero)
        · exact hne ((diff_eq_zero_iff _ _).mpr h)
        · exact hb.1 (hzero.symm.trans h)
      rw [if_neg hgo, ih hb.2 hrest (by omega)]
      exact ⟨fun hsame => ⟨h, hsame⟩, fun hsame => hsame.2⟩
    · have hne := (diff_eq_zero_iff (m s₁) c).not.mpr h
      rw [if_pos (.inl hne)]
      exact ⟨fun hzero => absurd hzero hne, fun hsame => absurd hsame.1 h⟩

/-- Its sign is the lexicographic order of what is compared. -/
theorem strncmp_neg_iff {m : Mem} (n : Nat) : ∀ {s₁ s₂ : Nat} {a b : List Byte}, 0 ∉ a → 0 ∉ b →
    m.Holds s₁ a → m.Holds s₂ b → (strncmp m s₁ s₂ n < 0 ↔ a.take n < b.take n) := by
  induction n with
  | zero =>
    intro s₁ s₂ a b _ _ _ _
    exact ⟨fun h => absurd h (Int.lt_irrefl 0), fun h => absurd h (List.not_lt_nil _)⟩
  | succ n ih =>
    intro s₁ s₂ a b ha hb h₁ h₂
    have hneg := diff_neg_iff (m s₁) (m s₂)
    rw [strncmp]
    cases a with
    | nil =>
      rw [Mem.holds_nil] at h₁
      rw [if_pos (.inr h₁), hneg, h₁]
      cases b with
      | nil =>
        rw [Mem.holds_nil.mp h₂]
        simp [BitVec.lt_irrefl]
      | cons y b =>
        rw [List.mem_cons, not_or] at hb
        rw [(Mem.holds_cons.mp h₂).1, List.take_nil, List.take_succ_cons]
        exact ⟨fun _ => List.nil_lt_cons _ _,
          fun _ => (BitVec.pos_iff_ne_zero y).mpr (Ne.symm hb.1)⟩
    | cons x a =>
      obtain ⟨hx, hrest⟩ := Mem.holds_cons.mp h₁
      rw [List.mem_cons, not_or] at ha
      cases b with
      | nil =>
        have hzero := Mem.holds_nil.mp h₂
        have hne : ((m s₁).toNat : Int) - (m s₂).toNat ≠ 0 := by
          rw [ne_eq, diff_eq_zero_iff, hx, hzero]
          exact fun h => ha.1 h.symm
        rw [if_pos (.inl hne), hneg, hzero, List.take_nil]
        exact ⟨fun h => absurd h BitVec.not_lt_zero, fun h => absurd h (List.not_lt_nil _)⟩
      | cons y b =>
        obtain ⟨hy, hrest'⟩ := Mem.holds_cons.mp h₂
        rw [List.mem_cons, not_or] at hb
        rw [List.take_succ_cons, List.take_succ_cons, List.cons_lt_cons_iff,
          ← ih ha.2 hb.2 hrest hrest', hx, hy]
        rw [hx, hy] at hneg
        by_cases h : x = y
        · have hgo : ¬ ((x.toNat : Int) - y.toNat ≠ 0 ∨ x = 0) := by
            rintro (hne | hzero)
            · exact hne ((diff_eq_zero_iff _ _).mpr h)
            · exact ha.1 hzero.symm
          rw [if_neg hgo]
          simp [h, BitVec.lt_irrefl]
        · rw [if_pos (.inl ((diff_eq_zero_iff x y).not.mpr h)), hneg]
          simp [h]

/-- **`strcmp`** with a terminated string. -/
theorem strcmp_eq_zero_iff {m : Mem} {b : List Byte} (hb : 0 ∉ b) {s₁ s₂ : Nat}
    (h : m.Holds s₂ b) (hlen : b.length < 2 ^ 32 - 1) : strcmp m s₁ s₂ = 0 ↔ m.Holds s₁ b :=
  strncmp_eq_zero_iff hb h hlen

/-! ## Copying -/

theorem Mem.stBytes_st8 (m : Mem) (a : Nat) (c : Byte) (l : List Byte) :
    (m.st8 a c).stBytes (a + 1) l = m.stBytes a (c :: l) := by
  rw [Mem.st8_eq_stBytes]
  exact Mem.stBytes_stBytes m a [c] l

theorem Mem.Holds.congr {m m' : Mem} {a : Nat} {l : List Byte} (h : m.Holds a l)
    (hsame : ∀ i, a ≤ i → i ≤ a + l.length → m' i = m i) : m'.Holds a l := by
  rw [Mem.Holds, ← h]
  exact Mem.bytes_congr fun i hlo hhi => hsame i hlo (by omega)

/-- **`strcpy`** copies a string and its terminator, unless it writes over what it has not
read yet. -/
theorem strcpy_spec {l : List Byte} (hl : 0 ∉ l) : ∀ {m : Mem} {dest src fuel : Nat},
    m.Holds src l → dest ≤ src ∨ src + l.length < dest → l.length < fuel →
      strcpy fuel m dest src = some (m.stBytes dest (l ++ [0])) := by
  induction l with
  | nil =>
    intro m dest src fuel hholds _ hfuel
    obtain ⟨fuel, rfl⟩ : ∃ f, fuel = f + 1 := ⟨fuel - 1, by omega⟩
    have hzero := Mem.holds_nil.mp hholds
    rw [strcpy, List.nil_append, ← Mem.stBytes_st8]
    simp only [hzero, ne_eq, not_true_eq_false, if_false, Mem.stBytes_nil]
  | cons c l ih =>
    intro m dest src fuel hholds hapart hfuel
    rw [List.length_cons] at hapart hfuel
    obtain ⟨fuel, rfl⟩ : ∃ f, fuel = f + 1 := ⟨fuel - 1, by omega⟩
    obtain ⟨hc, hrest⟩ := Mem.holds_cons.mp hholds
    rw [List.mem_cons, not_or] at hl
    have hkept : (m.st8 dest c).Holds (src + 1) l :=
      hrest.congr fun i hlo hhi => Mem.st8_of_ne m c (by omega)
    rw [strcpy, List.cons_append, ← Mem.stBytes_st8]
    simp only [hc, ne_eq, Ne.symm hl.1, not_false_eq_true, if_true]
    exact ih hl.2 hkept (by omega) (by omega)

end FlashFloppyTestbed
