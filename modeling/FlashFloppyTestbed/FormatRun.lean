/-
  FormatRun.lean --- how `vsnprintf` reads its format string.

  `vsnprintfLoop` and `more` take the format string as a list.  Here it is in memory, and
  each step of `FormatRun.step` loads one character of it, so that a run also says which
  bytes are loaded.  `FormatRun.call_prints` connects the two: where the list model prints
  something, the run prints the same.

  Arguments never run out: whatever a `va_arg` asks for is there.  What is handed to
  `do_putch` is listed in `out`.
-/
import FlashFloppyTestbed.Foundation.Run
import FlashFloppyTestbed.NumberFormat

set_option autoImplicit false

namespace FlashFloppyTestbed

open FlashFloppyTestbed.Foundation

/-! ## Steps -/

/-- Which load of a character of the format string comes next: the one of the outer loop,
of the switch, of the loop over the digits of a width, or of the look behind an `h`. -/
inductive Point where
  | loop
  | more
  | digits
  | half
  | done
  deriving DecidableEq

/-- What the variables of `vsnprintf` are, how many arguments have been taken, and what has
been handed to `do_putch`. -/
structure FormatRun where
  point : Point
  format : Nat
  flags : Flags
  width : BitVec 32
  taken : Nat
  out : List Byte

/-- What a `va_arg` yields, when it asks for a word or for a string. -/
structure Supply where
  word : BitVec 32
  str : CString

/-- The arguments from the `k`-th on are those of a list. -/
def Supplies (args : Nat → Supply) : Nat → List Arg → Prop
  | _, [] => True
  | k, .word x :: ap => (args k).word = x ∧ Supplies args (k + 1) ap
  | k, .str s :: ap => (args k).str = s ∧ Supplies args (k + 1) ap

/-- A character that ends a conversion: what is printed, and how many arguments are taken. -/
def conversionText (flags : Flags) (width : BitVec 32) (c : Byte) (arg : Supply) :
    List Byte × Nat :=
  match numberFlags flags c with
  | some flags => (numberText flags width arg.word, 1)
  | none =>
      if c = ch 's' then (stringText width arg.str, 1)
      else if c = ch 'c' then ([arg.word.setWidth 8], 1)
      else ([c], 0)

namespace FormatRun

variable (m : Mem) (args : Nat → Supply)

/-- `while ((c = *format++) != '\0')`. -/
def stepLoop (s : FormatRun) : FormatRun :=
  let c := m s.format
  if c = 0 then { s with point := .done, format := s.format + 1 }
  else if c = ch '%' then
    { s with point := .more, format := s.format + 1, flags := {}, width := 0 }
  else { s with format := s.format + 1, out := s.out ++ [c] }

/-- `switch (c = *format++)`. -/
def stepMore (s : FormatRun) : FormatRun :=
  let c := m s.format
  let s := { s with point := .more, format := s.format + 1 }
  if c = ch '*' then { s with width := (args s.taken).word, taken := s.taken + 1 }
  else if c = ch '#' then { s with flags := { s.flags with alternate := true } }
  else if c = ch '0' then { s with flags := { s.flags with zeropad := true } }
  else if isDigit c then { s with point := .digits, width := digitValue c }
  else if c = ch 'h' then { s with point := .half }
  else
    -- a conversion, or any other character: also the terminator
    let r := conversionText s.flags s.width c (args s.taken)
    { s with point := .loop, taken := s.taken + r.2, out := s.out ++ r.1 }

/-- `while (((c = *format) >= '0') && (c <= '9'))`. -/
def stepDigits (s : FormatRun) : FormatRun :=
  let c := m s.format
  if isDigit c then { s with width := s.width * 10 + digitValue c, format := s.format + 1 }
  else { s with point := .more }

/-- `if ((c = *format) == 'h')`. -/
def stepHalf (s : FormatRun) : FormatRun :=
  let c := m s.format
  let s := { s with point := .more }
  if c = ch 'h' then { s with flags := { s.flags with char := true }, format := s.format + 1 }
  else { s with flags := { s.flags with short := true } }

/-- One load of a character, and what follows up to the next one. -/
def step (s : FormatRun) : FormatRun :=
  match s.point with
  | .loop => stepLoop m s
  | .more => stepMore m args s
  | .digits => stepDigits m s
  | .half => stepHalf m s
  | .done => s

/-- The call. -/
def start (format : Nat) : FormatRun := ⟨.loop, format, {}, 0, 0, []⟩

end FormatRun

/-! ## Format strings -/

/-- A string, and its terminator. -/
def Mem.Holds (m : Mem) (a : Nat) (l : List Byte) : Prop := m.bytes a (l.length + 1) = l ++ [0]

theorem Mem.holds_nil {m : Mem} {a : Nat} : m.Holds a [] ↔ m a = 0 := by
  simp [Mem.Holds, Mem.bytes_succ, Mem.bytes_zero]

theorem Mem.holds_cons {m : Mem} {a : Nat} {c : Byte} {l : List Byte} :
    m.Holds a (c :: l) ↔ m a = c ∧ m.Holds (a + 1) l := by
  rw [Mem.Holds, List.length_cons, Mem.bytes_succ, List.cons_append, List.cons.injEq]
  rfl

/-- The characters after which a conversion goes on. -/
def isModifier (c : Byte) : Bool :=
  decide (c = ch '*') || decide (c = ch '#') || isDigit c || decide (c = ch 'h')

/-- How many arguments a character in a conversion takes. -/
def takes (c : Byte) : Nat :=
  if c ∈ ['*', 'o', 'd', 'i', 'u', 'X', 'x', 'p', 's', 'c'].map ch then 1 else 0

/-- Whether the format string is inside a conversion behind `c`. -/
def insideBehind (inside : Bool) (c : Byte) : Bool :=
  if inside then isModifier c else decide (c = ch '%')

/-- Whether a format string ends inside a conversion. -/
def endsInside (inside : Bool) (format : List Byte) : Bool := format.foldl insideBehind inside

/-- It may end behind the `%`, a flag, a digit or an `h`. -/
example : [['%'], ['%', '0'], ['%', '1', '2'], ['%', 'h'], ['%', 'h', 'h']].all
    (fun format => endsInside false (format.map ch)) = true := by
  decide

/-- The arguments that are printed by `%c`; `k` arguments come before. -/
def charArgs : Bool → Nat → List Byte → List Nat
  | _, _, [] => []
  | inside, k, c :: format =>
      (if inside ∧ c = ch 'c' then [k] else []) ++
        charArgs (insideBehind inside c) (k + if inside then takes c else 0) format

/-- One of the arguments that are printed by `%c` is printed as a NUL. -/
def PrintsNul (args : Nat → Supply) (inside : Bool) (k : Nat) (format : List Byte) : Prop :=
  ∃ i ∈ charArgs inside k format, (args i).word.setWidth 8 = 0

theorem printsNul_cons {args : Nat → Supply} {inside : Bool} {k : Nat} {c : Byte}
    {format : List Byte} : PrintsNul args inside k (c :: format) ↔
      (inside = true ∧ c = ch 'c' ∧ (args k).word.setWidth 8 = 0) ∨
        PrintsNul args (insideBehind inside c) (k + if inside then takes c else 0) format := by
  simp only [PrintsNul, charArgs, List.mem_append, or_and_right, exists_or]
  refine or_congr_left ?_
  split
  · next h => simp [h]
  · next h => simp [← and_assoc, h]

/-! ## Texts without NUL -/

theorem zero_notMem_numberText {flags : Flags} (hlo : 8 ≤ flags.base.toNat)
    (hhi : flags.base.toNat ≤ 16) (width x : BitVec 32) : 0 ∉ numberText flags width x := by
  have hopt : ∀ (b : Bool) (c : Byte), 0 ≠ c → 0 ∉ (if b = true then [c] else []) := by
    intro b c hc
    cases b
    · exact List.not_mem_nil
    · exact List.not_mem_cons_of_ne_of_not_mem hc List.not_mem_nil
  have hpad : ∀ n, 0 ∉ List.replicate n (if flags.zeropad then ch '0' else ch ' ') := by
    intro n hmem
    have h := List.eq_of_mem_replicate hmem
    revert h
    cases flags.zeropad <;> decide
  simp only [numberText, numeral_eq hlo hhi, Option.getD_some, List.mem_append, not_or]
  exact ⟨⟨⟨⟨⟨hopt _ _ (by decide), hopt _ _ (by decide)⟩, hopt _ _ (by decide)⟩, hpad _⟩,
    hopt _ _ (by decide)⟩, notMem_numeralText (by decide) (by omega) hhi _ _⟩

theorem zero_notMem_stringText (width : BitVec 32) (s : CString) : 0 ∉ stringText width s := by
  rw [stringText, List.mem_append, not_or]
  exact ⟨s.2, fun hmem => absurd (List.eq_of_mem_replicate hmem) (by decide)⟩

theorem numberFlags_base_le {flags flags' : Flags} {c : Byte}
    (h : numberFlags flags c = some flags') : flags'.base.toNat ≤ 16 := by
  rw [numberFlags] at h
  split_ifs at h <;> cases h <;> simp

/-- A character that ends a conversion prints a NUL if it is one, or if it is a `c` with a
NUL as its argument. -/
theorem zero_mem_conversionText {flags : Flags} {width : BitVec 32} {c : Byte} {arg : Supply} :
    0 ∈ (conversionText flags width c arg).1 ↔
      c = 0 ∨ (c = ch 'c' ∧ arg.word.setWidth 8 = 0) := by
  cases hflags : numberFlags flags c with
  | some flags' =>
    rw [conversionText, hflags]
    refine iff_of_false (zero_notMem_numberText (numberFlags_base hflags)
      (numberFlags_base_le hflags) _ _) ?_
    rintro (rfl | ⟨rfl, -⟩) <;> cases hflags
  | none =>
    rw [conversionText, hflags]
    dsimp only
    split
    · next hc =>
      subst hc
      refine iff_of_false (zero_notMem_stringText _ _) ?_
      rintro (h | ⟨h, -⟩) <;> revert h <;> decide
    · split
      · next hc =>
        have hne : c ≠ 0 := by
          rw [hc]
          decide
        rw [List.mem_singleton, or_iff_right hne, and_iff_right hc, eq_comm]
      · next hc => rw [List.mem_singleton, eq_comm, or_iff_left fun h => hc h.1]

theorem conversionText_taken {flags : Flags} {width : BitVec 32} {c : Byte} {arg : Supply}
    (hc : isModifier c = false) : (conversionText flags width c arg).2 = takes c := by
  have hstar : c ≠ ch '*' := by
    rintro rfl
    cases hc
  rw [takes, conversionText, numberFlags]
  simp only [List.map_cons, List.map_nil, List.mem_cons, List.not_mem_nil, or_false, hstar,
    false_or]
  split_ifs <;> simp_all

/-! ## Reading one character -/

namespace FormatRun

variable {m : Mem} {args : Nat → Supply} {s s' : FormatRun} {c : Byte}

/-- Whether a run is inside a conversion. -/
def inside (s : FormatRun) : Bool := decide (s.point ≠ .loop)

theorem inside_eq_false : s.inside = false ↔ s.point = .loop := by
  rw [inside, decide_eq_false_iff_not, not_not]

/-- What the list model still does where a run is. -/
def rest (last : Nat) (s : FormatRun) (format : List Byte) (ap : List Arg) (o : Cursor) :
    Option Cursor :=
  match s.point with
  | .loop => vsnprintfLoop last format ap o
  | .more => more last format false s.flags s.width ap o
  | .digits => more last format true s.flags s.width ap o
  | .half =>
      match format with
      | [] => none
      | c :: format =>
          if c = ch 'h' then more last format false { s.flags with char := true } s.width ap o
          else more last (c :: format) false { s.flags with short := true } s.width ap o
  | .done => some o

section Rest

variable {last : Nat} {format : List Byte} {ap : List Arg} {o : Cursor}

theorem rest_loop (h : s.point = .loop) :
    rest last s format ap o = vsnprintfLoop last format ap o := by
  rw [rest.eq_def, h]

theorem rest_more (h : s.point = .more) :
    rest last s format ap o = more last format false s.flags s.width ap o := by
  rw [rest.eq_def, h]

theorem rest_digits (h : s.point = .digits) :
    rest last s format ap o = more last format true s.flags s.width ap o := by
  rw [rest.eq_def, h]

theorem rest_half (h : s.point = .half) : rest last s (c :: format) ap o =
    if c = ch 'h' then more last format false { s.flags with char := true } s.width ap o
    else more last (c :: format) false { s.flags with short := true } s.width ap o := by
  rw [rest.eq_def, h]

theorem more_digit (hc : isDigit c = true) (flags : Flags) (width : BitVec 32) :
    more last (c :: format) true flags width ap o =
      more last format true flags (width * 10 + digitValue c) ap o := by
  rw [more.eq_def]
  exact if_pos hc

/-- The loop over the digits of a width ends. -/
theorem more_not_digit (hc : isDigit c = false) (flags : Flags) (width : BitVec 32) :
    more last (c :: format) true flags width ap o =
      more last (c :: format) false flags width ap o := by
  have hrun : ∀ digits, ¬ (digits && isDigit c) = true := by
    intro digits
    rw [hc, Bool.and_false]
    exact Bool.false_ne_true
  rw [more.eq_def, more.eq_def last (c :: format) false]
  exact (if_neg (hrun true)).trans (if_neg (hrun false)).symm

end Rest

/-- Behind `c`, the list model is where the run is, and both have printed the same. -/
def Simulates (args : Nat → Supply) (c : Byte) (s s' : FormatRun) : Prop :=
  ∀ last format ap o o', rest last s (c :: format) ap o = some o' → Supplies args s.taken ap →
    ∃ ap' text, s'.out = s.out ++ text ∧ Supplies args s'.taken ap' ∧
      rest last s' format ap' (puts last o text) = some o'

/-- A character that takes no argument and prints nothing. -/
theorem Simulates.silent (hout : s'.out = s.out) (htaken : s'.taken = s.taken)
    (hrest : ∀ last format ap o, rest last s (c :: format) ap o = rest last s' format ap o) :
    Simulates args c s s' := by
  intro last format ap o o' h hap
  rw [hrest] at h
  exact ⟨ap, [], by rw [hout, List.append_nil], htaken ▸ hap, h⟩

/-- `s'` is where the run from `s` is behind the next character, `c`. -/
structure Consumed (args : Nat → Supply) (c : Byte) (s s' : FormatRun) : Prop where
  running : s'.point ≠ .done
  format : s'.format = s.format + 1
  inside : s'.inside = insideBehind s.inside c
  taken : s'.taken = s.taken + if s.inside then takes c else 0
  out : 0 ∈ s'.out ↔ 0 ∈ s.out ∨
    (s.inside = true ∧ (c = 0 ∨ c = ch 'c' ∧ (args s.taken).word.setWidth 8 = 0))
  simulates : Simulates args c s s'

theorem stepLoop_consumed (hpoint : s.point = .loop) (hc : m s.format ≠ 0) :
    Consumed args (m s.format) s (stepLoop m s) := by
  have hinside := inside_eq_false.mpr hpoint
  by_cases hpercent : m s.format = ch '%'
  · have hstep : stepLoop m s =
        { s with point := .more, format := s.format + 1, flags := {}, width := 0 } :=
      (if_neg hc).trans (if_pos hpercent)
    rw [hstep]
    refine ⟨nofun, rfl, ?_, ?_, ?_, .silent rfl rfl fun last format ap o => ?_⟩
    · rw [hinside]
      exact (decide_eq_true hpercent).symm
    · rw [hinside]
      rfl
    · rw [hinside]
      exact (or_iff_left fun h => Bool.false_ne_true h.1).symm
    · rw [rest_loop hpoint]
      exact if_pos hpercent
  · have hstep : stepLoop m s = { s with format := s.format + 1, out := s.out ++ [m s.format] } :=
      (if_neg hc).trans (if_neg hpercent)
    rw [hstep]
    refine ⟨by simp [hpoint], rfl, ?_, ?_, ?_, fun last format ap o o' h hap => ?_⟩
    · rw [hinside]
      exact hinside.trans (decide_eq_false hpercent).symm
    · rw [hinside]
      rfl
    · rw [hinside, List.mem_append, List.mem_singleton]
      exact or_congr_right (iff_of_false hc.symm fun h => Bool.false_ne_true h.1)
    · rw [rest_loop hpoint, vsnprintfLoop, if_neg hpercent] at h
      exact ⟨ap, [m s.format], rfl, hap, (rest_loop hpoint).trans h⟩

/-- A character behind which a conversion goes on. -/
theorem Consumed.modifier (hinside : s.inside = true) (hc : isModifier c = true) {point : Point}
    (hpoint : point = .more ∨ point = .digits ∨ point = .half) (flags : Flags)
    (width : BitVec 32) (hsim : Simulates args c s
      ⟨point, s.format + 1, flags, width, s.taken + takes c, s.out⟩) :
    Consumed args c s ⟨point, s.format + 1, flags, width, s.taken + takes c, s.out⟩ := by
  have hpoint' : point ≠ .loop ∧ point ≠ .done := by
    rcases hpoint with rfl | rfl | rfl <;> decide
  have hnot : ¬ (c = 0 ∨ c = ch 'c' ∧ (args s.taken).word.setWidth 8 = 0) := by
    rintro (rfl | ⟨rfl, -⟩) <;> cases hc
  refine ⟨hpoint'.2, rfl, ?_, ?_, ?_, hsim⟩
  · rw [hinside]
    exact (decide_eq_true hpoint'.1).trans hc.symm
  · rw [hinside]
    rfl
  · exact (or_iff_left fun h => hnot h.2).symm

theorem takes_of_isDigit (hc : isDigit c = true) : takes c = 0 := by
  rw [takes, if_neg]
  intro hmem
  have hall : ∀ c ∈ ['*', 'o', 'd', 'i', 'u', 'X', 'x', 'p', 's', 'c'].map ch,
      isDigit c = false := by
    decide
  rw [hall c hmem] at hc
  cases hc

/-- The list model ends a conversion in the same way. -/
theorem convert_eq {last : Nat} {flags : Flags} {width : BitVec 32} {ap ap' : List Arg}
    {o o' : Cursor} {k : Nat} (h : convert last flags width c ap o = some (ap', o'))
    (hap : Supplies args k ap) :
    o' = puts last o (conversionText flags width c (args k)).1 ∧
      Supplies args (k + (conversionText flags width c (args k)).2) ap' := by
  rw [convert.eq_def] at h
  rw [conversionText]
  cases hflags : numberFlags flags c with
  | some flags' =>
    rw [hflags] at h
    rcases ap with _ | ⟨x | str, ap⟩
    · cases h
    · obtain ⟨rfl, hap⟩ := hap
      dsimp only at h
      rw [putNumber_eq (numberFlags_base hflags)] at h
      cases h
      exact ⟨rfl, hap⟩
    · cases h
  | none =>
    rw [hflags] at h
    dsimp only at h ⊢
    split at h
    · next hs =>
      rw [if_pos hs]
      rcases ap with _ | ⟨x | str, ap⟩
      · cases h
      · cases h
      · obtain ⟨rfl, hap⟩ := hap
        cases h
        exact ⟨putString_eq _ _ _ _, hap⟩
    · next hs =>
      rw [if_neg hs]
      split at h
      · next hchar =>
        rw [if_pos hchar]
        rcases ap with _ | ⟨x | str, ap⟩
        · cases h
        · obtain ⟨rfl, hap⟩ := hap
          cases h
          exact ⟨rfl, hap⟩
        · cases h
      · next hchar =>
        rw [if_neg hchar]
        cases h
        exact ⟨rfl, hap⟩

theorem isModifier_eq_false : isModifier c = false ↔
    isDigit c = false ∧ c ≠ ch '*' ∧ c ≠ ch '#' ∧ c ≠ ch 'h' := by
  simp only [isModifier, Bool.or_eq_false_iff, decide_eq_false_iff_not]
  tauto

/-- A character that ends a conversion. -/
theorem Consumed.conversion (hpoint : s.point = .more) (hc : isModifier c = false) :
    Consumed args c s ⟨.loop, s.format + 1, s.flags, s.width, s.taken + takes c,
      s.out ++ (conversionText s.flags s.width c (args s.taken)).1⟩ := by
  have hinside : s.inside = true := by
    rw [FormatRun.inside, hpoint]
    rfl
  obtain ⟨hdigit, hstar, halt, hh⟩ := isModifier_eq_false.mp hc
  refine ⟨nofun, rfl, ?_, ?_, ?_, fun last format ap o o' h hap => ?_⟩
  · rw [hinside]
    exact hc.symm
  · rw [hinside]
    rfl
  · rw [hinside, List.mem_append, zero_mem_conversionText]
    exact or_congr_right (and_iff_right rfl).symm
  · rw [rest_more hpoint, more_last hdigit hstar halt hh] at h
    obtain ⟨⟨ap', o''⟩, hconvert, hloop⟩ := Option.bind_eq_some_iff.mp h
    obtain ⟨rfl, hap'⟩ := convert_eq hconvert hap
    rw [conversionText_taken hc] at hap'
    exact ⟨ap', _, rfl, hap', hloop⟩

theorem stepMore_consumed (hpoint : s.point = .more) :
    Consumed args (m s.format) s (stepMore m args s) := by
  have hinside : s.inside = true := by
    rw [inside, hpoint]
    rfl
  obtain ⟨c, hc⟩ : ∃ c, c = m s.format := ⟨_, rfl⟩
  have hstep : stepMore m args s = stepMore (fun _ => c) args s := by
    rw [hc]
    rfl
  rw [hstep, ← hc]
  by_cases hstar : c = ch '*'
  · subst hstar
    refine .modifier hinside rfl (.inl rfl) _ _ fun last format ap o o' h hap => ?_
    rw [rest_more hpoint] at h
    rcases ap with _ | ⟨x | str, ap⟩
    · rw [more.eq_def] at h
      cases h
    · obtain ⟨rfl, hap⟩ := hap
      rw [more_star] at h
      exact ⟨ap, [], (List.append_nil _).symm, hap, h⟩
    · rw [more.eq_def] at h
      cases h
  by_cases halt : c = ch '#'
  · subst halt
    refine .modifier hinside rfl (.inl rfl) _ _ (.silent rfl rfl fun last format ap o => ?_)
    rw [rest_more hpoint, more.eq_def]
    rfl
  by_cases hzero : c = ch '0'
  · subst hzero
    refine .modifier hinside rfl (.inl rfl) _ _ (.silent rfl rfl fun last format ap o => ?_)
    exact (rest_more hpoint).trans more_zero
  by_cases hdigit : isDigit c = true
  · have hpast : stepMore (fun _ => c) args s =
        ⟨.digits, s.format + 1, s.flags, digitValue c, s.taken + takes c, s.out⟩ := by
      rw [takes_of_isDigit hdigit]
      exact (if_neg hstar).trans ((if_neg halt).trans ((if_neg hzero).trans (if_pos hdigit)))
    rw [hpast]
    refine .modifier hinside (by simp [isModifier, hdigit]) (.inr (.inl rfl)) _ _
      (.silent rfl (by rw [takes_of_isDigit hdigit]; rfl) fun last format ap o => ?_)
    rw [rest_more hpoint, more.eq_def]
    exact (if_neg hstar).trans ((if_neg halt).trans ((if_neg hzero).trans (if_pos hdigit)))
  by_cases hh : c = ch 'h'
  · subst hh
    refine .modifier hinside rfl (.inr (.inr rfl)) _ _ (.silent rfl rfl fun last format ap o => ?_)
    rw [rest_more hpoint, more.eq_def]
    rfl
  have hlast := isModifier_eq_false.mpr ⟨Bool.eq_false_iff.mpr hdigit, hstar, halt, hh⟩
  have hpast : stepMore (fun _ => c) args s =
      ⟨.loop, s.format + 1, s.flags, s.width, s.taken + takes c,
        s.out ++ (conversionText s.flags s.width c (args s.taken)).1⟩ := by
    rw [← conversionText_taken hlast]
    exact (if_neg hstar).trans ((if_neg halt).trans ((if_neg hzero).trans
      ((if_neg hdigit).trans (if_neg hh))))
  rw [hpast]
  exact .conversion hpoint hlast

/-- What a run does up to the next character. -/
def Stays (s t : FormatRun) : Prop := t.point ≠ .done ∧ t.format = s.format ∧ t.out = s.out

/-- A step that looks at a character and leaves it. -/
theorem consumed_of_look {flags : Flags} (hinside : s.inside = true) (hpoint : s.point ≠ .done)
    (hstep : step m args s = { s with point := .more, flags := flags })
    (hrest : ∀ last format ap o, rest last s (m s.format :: format) ap o =
      more last (m s.format :: format) false flags s.width ap o) :
    ∃ s', Path (step m args) s.Stays s s' ∧ Consumed args (m s.format) s s' := by
  obtain ⟨t, ht⟩ : ∃ t : FormatRun, t = { s with point := .more, flags := flags } := ⟨_, rfl⟩
  have hmore : Consumed args (m t.format) t (stepMore m args t) := stepMore_consumed (by rw [ht])
  refine ⟨stepMore m args t, .step ⟨hpoint, rfl, rfl⟩ ?_, ?_⟩
  · rw [hstep, ← ht]
    have hnext : step m args t = stepMore m args t := by rw [step, ht]
    rw [← hnext]
    exact .step (by subst ht; exact ⟨nofun, rfl, rfl⟩) (.here _)
  · subst ht
    refine ⟨hmore.running, hmore.format, ?_, ?_, ?_, fun last format ap o o' h hap => ?_⟩
    · rw [hinside]
      exact hmore.inside
    · rw [hinside]
      exact hmore.taken
    · rw [hinside]
      exact hmore.out
    · rw [hrest] at h
      exact hmore.simulates last format ap o o' h hap

/-- **The next character** is read in one step, or looked at first.  It may be the
terminator if the run is inside a conversion. -/
theorem exists_consumed (m : Mem) (args : Nat → Supply) (hpoint : s.point ≠ .done)
    (hc : m s.format = 0 → s.inside = true) :
    ∃ s', Path (step m args) s.Stays s s' ∧ Consumed args (m s.format) s s' := by
  have hone : ∀ s', step m args s = s' → Consumed args (m s.format) s s' →
      ∃ s', Path (step m args) s.Stays s s' ∧ Consumed args (m s.format) s s' := by
    rintro s' rfl h
    exact ⟨_, .step ⟨hpoint, rfl, rfl⟩ (.here _), h⟩
  cases hs : s.point with
  | loop =>
    refine hone (stepLoop m s) (by rw [step, hs]) (stepLoop_consumed hs fun h => ?_)
    have hinside := hc h
    rw [inside, hs] at hinside
    cases hinside
  | more => exact hone (stepMore m args s) (by rw [step, hs]) (stepMore_consumed hs)
  | digits =>
    have hinside : s.inside = true := by rw [inside, hs]; rfl
    have hstep : step m args s = stepDigits m s := by rw [step, hs]
    by_cases hdigit : isDigit (m s.format) = true
    · refine hone _ (hstep.trans (if_pos hdigit)) ?_
      obtain ⟨s', hs'⟩ : ∃ s' : FormatRun, s' =
          { s with width := s.width * 10 + digitValue (m s.format), format := s.format + 1 } :=
        ⟨_, rfl⟩
      have hsim : Simulates args (m s.format) s s' := by
        have hpoint' : s'.point = .digits := hs'.symm ▸ hs
        refine .silent (hs'.symm ▸ rfl) (hs'.symm ▸ rfl) fun last format ap o => ?_
        rw [rest_digits hs, more_digit hdigit, rest_digits hpoint', hs']
      rw [hs'] at hsim
      have hconsumed : ∀ taken, taken = s.taken + takes (m s.format) →
          Simulates args (m s.format) s ⟨s.point, s.format + 1, s.flags,
            s.width * 10 + digitValue (m s.format), taken, s.out⟩ →
          Consumed args (m s.format) s ⟨s.point, s.format + 1, s.flags,
            s.width * 10 + digitValue (m s.format), taken, s.out⟩ := by
        rintro taken rfl hsim
        exact .modifier hinside (by simp [isModifier, hdigit]) (.inr (.inl hs)) _ _ hsim
      exact hconsumed s.taken (by rw [takes_of_isDigit hdigit]; rfl) hsim
    · exact consumed_of_look hinside hpoint (hstep.trans (if_neg hdigit)) fun last format ap o =>
        (rest_digits hs).trans (more_not_digit (Bool.eq_false_iff.mpr hdigit) _ _)
  | half =>
    have hinside : s.inside = true := by rw [inside, hs]; rfl
    have hstep : step m args s = stepHalf m s := by rw [step, hs]
    by_cases hh : m s.format = ch 'h'
    · refine hone _ (hstep.trans (if_pos hh)) ?_
      rw [hh]
      refine .modifier hinside rfl (.inl rfl) _ _ (.silent rfl rfl fun last format ap o => ?_)
      exact (rest_half hs).trans (if_pos rfl)
    · exact consumed_of_look hinside hpoint (hstep.trans (if_neg hh)) fun last format ap o =>
        (rest_half hs).trans (if_neg hh)
  | done => exact absurd hs hpoint

/-! ## Runs -/

/-- What holds up to the end of a format string whose terminator is at `bound`; `nul` says
whether a NUL is ever printed. -/
def Reading (bound : Nat) (nul : Prop) (s : FormatRun) : Prop :=
  s.point ≠ .done ∧ s.format ≤ bound ∧ (0 ∈ s.out → nul)

/-- A format string ends inside a conversion. -/
theorem rest_nil (hpoint : s.point ≠ .done) (hinside : s.inside = true) (last : Nat)
    (ap : List Arg) (o : Cursor) : rest last s [] ap o = none := by
  rw [rest.eq_def]
  cases hs : s.point with
  | loop =>
    rw [inside_eq_false.mpr hs] at hinside
    cases hinside
  | more => exact more.eq_def last [] _ _ _ _ _
  | digits => exact more.eq_def last [] _ _ _ _ _
  | half => rfl
  | done => exact absurd hs hpoint

/-- `t` is where the run from `s` is behind the terminator: the loop ends there, or goes on.
If the list model prints something, it has ended and has printed the same. -/
structure AtEnd (m : Mem) (args : Nat → Supply) (bound : Nat) (nul : Prop) (format : List Byte)
    (s t : FormatRun) : Prop where
  path : Path (step m args) (Reading bound nul) s t
  behind : t.format = bound + 1
  goesOn : endsInside s.inside format = true → t.point = .loop
  ends : endsInside s.inside format = false → t.point = .done ∧ (0 ∈ t.out ↔ nul)
  prints : ∀ last ap o o', rest last s format ap o = some o' → Supplies args s.taken ap →
    endsInside s.inside format = false ∧ ∃ text, t.out = s.out ++ text ∧ o' = puts last o text

/-- At the terminator. -/
theorem exists_end_nil {bound : Nat} {nul : Prop} (hpoint : s.point ≠ .done)
    (hc : m s.format = 0) (hbound : s.format = bound) (hnul : 0 ∈ s.out ↔ nul) :
    ∃ t, AtEnd m args bound nul [] s t := by
  have hmono : ∀ t, s.Stays t → Reading bound nul t := fun t ht =>
    ⟨ht.1, Nat.le_of_eq (ht.2.1.trans hbound), fun h => hnul.mp (ht.2.2 ▸ h)⟩
  cases hinside : s.inside with
  | true =>
    obtain ⟨t, hpath, ht⟩ := exists_consumed m args hpoint fun _ => hinside
    refine ⟨t, hpath.mono hmono, by rw [ht.format, hbound], fun _ => ?_, fun h => ?_, ?_⟩
    · have hloop := ht.inside
      rw [hinside, hc] at hloop
      exact inside_eq_false.mp hloop
    · exact absurd (h.symm.trans hinside) Bool.false_ne_true
    · intro last ap o o' h
      rw [rest_nil hpoint hinside] at h
      cases h
  | false =>
    have hloop := inside_eq_false.mp hinside
    have hstep : step m args s = { s with point := .done, format := s.format + 1 } := by
      rw [step, hloop]
      exact if_pos hc
    refine ⟨_, .step (hmono s ⟨hpoint, rfl, rfl⟩) (.here _), ?_, fun h => ?_, fun _ => ?_,
      fun last ap o o' h _ => ?_⟩
    · rw [hstep, ← hbound]
    · exact absurd (hinside.symm.trans h) Bool.false_ne_true
    · rw [hstep]
      exact ⟨rfl, hnul⟩
    · rw [rest_loop hloop] at h
      rw [hstep]
      exact ⟨hinside, [], (List.append_nil _).symm, (Option.some.inj h).symm⟩

/-- **A run to the end** of the format string. -/
theorem exists_end (args : Nat → Supply) {bound : Nat} {nul : Prop} (format : List Byte) :
    ∀ s : FormatRun, s.point ≠ .done → m.Holds s.format format → 0 ∉ format →
      s.format + format.length = bound →
      (0 ∈ s.out ∨ PrintsNul args s.inside s.taken format ↔ nul) →
        ∃ t, AtEnd m args bound nul format s t := by
  induction format with
  | nil =>
    intro s hpoint hholds _ hbound hnul
    have hnone : ¬ PrintsNul args s.inside s.taken [] := by
      rintro ⟨i, hi, -⟩
      exact absurd hi List.not_mem_nil
    rw [or_iff_left hnone] at hnul
    exact exists_end_nil hpoint (Mem.holds_nil.mp hholds) hbound hnul
  | cons c format ih =>
    intro s hpoint hholds hzero hbound hnul
    obtain ⟨hc, hholds'⟩ := Mem.holds_cons.mp hholds
    obtain ⟨hzero', hzero''⟩ := not_or.mp (List.mem_cons.not.mp hzero)
    have hne : m s.format ≠ 0 := by
      rw [hc]
      exact Ne.symm hzero'
    rw [List.length_cons] at hbound
    obtain ⟨s', hpath, hs'⟩ := exists_consumed m args hpoint fun h => absurd h hne
    rw [hc] at hs'
    have hnul' : 0 ∈ s'.out ∨ PrintsNul args s'.inside s'.taken format ↔ nul := by
      rw [hs'.out, hs'.inside, hs'.taken, or_assoc, ← hnul, printsNul_cons]
      refine or_congr_right (or_congr_left (and_congr_right fun _ => ?_))
      exact or_iff_right (Ne.symm hzero')
    have hfirst : ∀ t, s.Stays t → Reading bound nul t := fun t ht =>
      ⟨ht.1, by rw [ht.2.1]; omega, fun h => hnul.mp (.inl (ht.2.2 ▸ h))⟩
    obtain ⟨t, ht⟩ := ih s' hs'.running (by rwa [hs'.format]) hzero''
      (by rw [hs'.format]; omega) hnul'
    have hends : endsInside s.inside (c :: format) = endsInside s'.inside format := by
      rw [hs'.inside]
      rfl
    refine ⟨t, (hpath.mono hfirst).trans ht.path, ht.behind, fun h => ht.goesOn (hends ▸ h),
      fun h => ht.ends (hends ▸ h), fun last ap o o' h hap => ?_⟩
    obtain ⟨ap', text, hout, hap', h'⟩ := hs'.simulates last format ap o o' h hap
    obtain ⟨hclosed, text', hout', ho'⟩ := ht.prints last ap' _ o' h' hap'
    refine ⟨hends.trans hclosed, text ++ text', ?_, ?_⟩
    · rw [hout', hout, List.append_assoc]
    · rw [ho', puts_append]

/-- The states of a call. -/
def call (m : Mem) (args : Nat → Supply) (format : Nat) (n : Nat) : FormatRun :=
  (step m args)^[n] (start format)

/-- **Parsing stops at the terminator.**  The format string of a call that is at `format`
and has its terminator at `bound`: no byte behind the terminator is loaded, the call
returns, and no NUL is handed to `do_putch`. -/
structure StopsAt (m : Mem) (args : Nat → Supply) (format bound : Nat) : Prop where
  loads : ∀ n, (call m args format n).point ≠ .done → (call m args format n).format ≤ bound
  returns : ∃ n, (call m args format n).point = .done
  clean : ∀ n, 0 ∉ (call m args format n).out

theorem exists_call_end {m : Mem} {format : Nat} {str : CString} (h : m.Holds format str.val)
    (args : Nat → Supply) :
    ∃ t, AtEnd m args (format + str.val.length) (PrintsNul args false 0 str.val) str.val
      (start format) t :=
  exists_end args str.val (start format) nofun h str.2 rfl (or_iff_right List.not_mem_nil)

/-- **A run prints what the list model prints.** -/
theorem call_prints {m : Mem} {format : Nat} {str : CString} (h : m.Holds format str.val)
    {args : Nat → Supply} {last : Nat} {ap : List Arg} {o o' : Cursor}
    (hap : Supplies args 0 ap) (hloop : vsnprintfLoop last str.val ap o = some o') :
    ∃ n, (call m args format n).point = .done ∧ o' = puts last o (call m args format n).out := by
  obtain ⟨t, ht⟩ := exists_call_end h args
  obtain ⟨hclosed, text, hout, ho'⟩ := ht.prints last ap o o' hloop hap
  obtain ⟨n, hn⟩ : ∃ n, call m args format n = t := ht.path.exists_iterate
  refine ⟨n, hn ▸ (ht.ends hclosed).1, ?_⟩
  rw [ho', hn, hout]
  rfl

section Terminator

variable {format : Nat} {str : CString}

/-- No byte behind the terminator is loaded, and the call returns, if and only if the format
string does not end inside a conversion. -/
theorem loads_iff (h : m.Holds format str.val) (args : Nat → Supply) :
    ((∀ n, (call m args format n).point ≠ .done →
        (call m args format n).format ≤ format + str.val.length) ∧
      ∃ n, (call m args format n).point = .done) ↔ endsInside false str.val = false := by
  obtain ⟨t, ht⟩ := exists_call_end h args
  obtain ⟨n, hn⟩ : ∃ n, call m args format n = t := ht.path.exists_iterate
  constructor
  · rintro ⟨hloads, -⟩
    refine Bool.eq_false_iff.mpr fun hinside => ?_
    have hloop := ht.goesOn hinside
    have hle := hloads n (by rw [hn, hloop]; nofun)
    rw [hn, ht.behind] at hle
    exact absurd hle (Nat.not_succ_le_self _)
  · intro hinside
    have hdone := (ht.ends hinside).1
    refine ⟨fun n hrunning => ?_, n, hn ▸ hdone⟩
    rcases ht.path.iterate (by rw [step, hdone]) n with hreading | heq
    · exact hreading.2.1
    · exact absurd ((congrArg point heq).trans hdone) hrunning

/-- A format string that does not end inside a conversion prints a NUL only by `%c`. -/
theorem clean_iff (h : m.Holds format str.val) (args : Nat → Supply)
    (hinside : endsInside false str.val = false) :
    (∀ n, 0 ∉ (call m args format n).out) ↔ ¬ PrintsNul args false 0 str.val := by
  obtain ⟨t, ht⟩ := exists_call_end h args
  obtain ⟨n, hn⟩ : ∃ n, call m args format n = t := ht.path.exists_iterate
  obtain ⟨hdone, hnul⟩ := ht.ends hinside
  constructor
  · intro hclean hprints
    exact hclean n (hn ▸ hnul.mpr hprints)
  · intro hprints n hout
    rcases ht.path.iterate (by rw [step, hdone]) n with hreading | heq
    · exact hprints (hreading.2.2 hout)
    · exact hprints (hnul.mp (heq ▸ hout))

/-- **Parsing stops at the terminator** if and only if the format string does not end inside
a conversion, and `%c` is never given a NUL. -/
theorem stopsAt_iff (h : m.Holds format str.val) (args : Nat → Supply) :
    StopsAt m args format (format + str.val.length) ↔
      endsInside false str.val = false ∧ ¬ PrintsNul args false 0 str.val := by
  constructor
  · rintro ⟨hloads, hreturns, hclean⟩
    have hinside := (loads_iff h args).mp ⟨hloads, hreturns⟩
    exact ⟨hinside, (clean_iff h args hinside).mp hclean⟩
  · rintro ⟨hinside, hprints⟩
    obtain ⟨hloads, hreturns⟩ := (loads_iff h args).mpr hinside
    exact ⟨hloads, hreturns, (clean_iff h args hinside).mpr hprints⟩

end Terminator

/-- `"%hu"`. -/
def huFormat : CString := ⟨['%', 'h', 'u'].map ch, by decide⟩

theorem stopsAt_iff_hu : StopsAt (fun i => huFormat.val.getD i 0)
    (fun _ => ⟨7, [], List.not_mem_nil⟩) 0 3 := by
  have hnul : ∀ args, ¬ PrintsNul args false 0 huFormat.val := by
    rintro args ⟨i, hi, -⟩
    exact List.not_mem_nil hi
  have hholds : Mem.Holds (fun i => huFormat.val.getD i 0) 0 huFormat.val := rfl
  exact (stopsAt_iff hholds _).mpr ⟨by decide, hnul _⟩

/-- Behind the terminator of `"%"` there is an `A`, which is printed, and in front of it the
terminator. -/
theorem stopsAt_percent : Mem.Holds (fun i => [ch '%', 0, ch 'A'].getD i 0) 0 [ch '%'] ∧
    (call (fun i => [ch '%', 0, ch 'A'].getD i 0) (fun _ => ⟨7, [], List.not_mem_nil⟩) 0 3).out =
      [0, ch 'A'] ∧
    ¬ StopsAt (fun i => [ch '%', 0, ch 'A'].getD i 0) (fun _ => ⟨7, [], List.not_mem_nil⟩) 0 1 := by
  refine ⟨rfl, by decide, fun h => ?_⟩
  exact absurd (h.loads 2 (by decide)) (by decide)

end FormatRun

end FlashFloppyTestbed
