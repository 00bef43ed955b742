/-
  Strtol.lean --- `strtol` of `src/util.c`, against the grammar of C.

  A string is the list of its characters, without the NUL; a pointer into it is what
  is left of it from there on.  `val` wraps at 32 bits.

  `Subject` is the grammar: white space, a sign, and a `Numeral`, which is digits of
  the base, behind `0x` where the base allows it and a hexadecimal digit follows.
  `StrtolSpec` says that the longest such prefix is read, or nothing.  `strtol` falls
  short of that in two ways (`Misread`): it leaves the white space and the sign
  behind even if there is no numeral, and it looks at the `x` of `0x` in every base,
  with the base 0 already turned into 8.
-/
import FlashFloppyTestbed.Snprintf
import Mathlib.Algebra.Group.Int.Defs
import Mathlib.Data.List.TakeWhile
import Mathlib.Tactic.Common

set_option autoImplicit false

namespace FlashFloppyTestbed

/-! ## The code -/

/-- `tolower`. -/
def tolower (c : Byte) : Byte := if ch 'A' ≤ c ∧ c ≤ ch 'Z' then c + (ch 'a' - ch 'A') else c

/-- `isspace`. -/
def isspace (c : Byte) : Bool :=
  c == ch ' ' || c == ch '\t' || c == ch '\n' || c == ch '\r' || c == 0x0c || c == 0x0b

/-- `*p`: behind the last character comes a NUL. -/
def deref (p : List Byte) : Byte := p.headD 0

/-- The digit that the character `c` stands for. -/
def digitOf (c : Byte) : Option Nat :=
  if ch '0' ≤ c ∧ c ≤ ch '9' then some (c - ch '0').toNat
  else if ch 'a' ≤ c ∧ c ≤ ch 'z' then some (c - (ch 'a' - 10)).toNat
  else none

/-- The loop over the digits. -/
def strtolDigits (base : Nat) : List Byte → BitVec 32 → BitVec 32 × List Byte
  | [], val => (val, [])
  | c :: p, val =>
    (digitOf (tolower c)).elim (val, c :: p) fun d =>
      if d ≥ base then (val, c :: p)
      else strtolDigits base p (val * BitVec.ofNat 32 base + BitVec.ofNat 32 d)

/-- The base prefix and the digits: `val`, and `p` at `out`. -/
def strtolNumber (p : List Byte) (base : Nat) : BitVec 32 × List Byte :=
  if tolower (deref p) = ch '0' then
    let base := if base = 0 then 8 else base
    let p := p.tail
    if tolower (deref p) = ch 'x' then
      let base := if base = 0 then 16 else base
      if base ≠ 16 then (0, p) else strtolDigits base p.tail 0
    else
      strtolDigits base p 0
  else
    strtolDigits (if base = 0 then 10 else base) p 0

/-- `is_neg`. -/
def isNeg (nptr : List Byte) : Bool := tolower (deref (nptr.dropWhile isspace)) == ch '-'

/-- `p` behind the white space and the sign. -/
def behindSign (nptr : List Byte) : List Byte :=
  let p := nptr.dropWhile isspace
  let c := tolower (deref p)
  if c = ch '+' ∨ c = ch '-' then p.tail else p

/-- `strtol`: the result, and what is stored to `*endptr`. -/
def strtol (nptr : List Byte) (base : Nat) : BitVec 32 × List Byte :=
  let (val, p) := strtolNumber (behindSign nptr) base
  (if isNeg nptr then -val else val, p)

/-! ## The grammar -/

/-- The value of a digit, in either case. -/
def digitIn (c : Byte) : Option Nat :=
  if ch '0' ≤ c ∧ c ≤ ch '9' then some (c.toNat - 48)
  else if ch 'a' ≤ c ∧ c ≤ ch 'z' then some (c.toNat - 97 + 10)
  else if ch 'A' ≤ c ∧ c ≤ ch 'Z' then some (c.toNat - 65 + 10)
  else none

/-- A digit below `radix`. -/
def digitBelow (radix : Nat) (c : Byte) : Bool := (digitIn c).any (· < radix)

/-- What digits denote, from `v` on. -/
def digitsValue (radix v : Nat) (ds : List Byte) : Nat :=
  ds.foldl (fun v c => v * radix + (digitIn c).getD 0) v

/-- The letter of `0x`. -/
def isX (c : Byte) : Bool := c == ch 'x' || c == ch 'X'

/-- The numerals of a base, with their values. -/
inductive Numeral : Nat → List Byte → Nat → Prop where
  | plain {base : Nat} {ds : List Byte} (hbase : base ≠ 0) (hne : ds ≠ [])
      (hds : ∀ c ∈ ds, digitBelow base c = true) : Numeral base ds (digitsValue base 0 ds)
  | hex {base : Nat} {x : Byte} {ds : List Byte} (hbase : base = 0 ∨ base = 16)
      (hx : isX x = true) (hne : ds ≠ []) (hds : ∀ c ∈ ds, digitBelow 16 c = true) :
      Numeral base (ch '0' :: x :: ds) (digitsValue 16 0 ds)
  | octal {ds : List Byte} (hds : ∀ c ∈ ds, digitBelow 8 c = true) :
      Numeral 0 (ch '0' :: ds) (digitsValue 8 0 ds)
  | decimal {ds : List Byte} (hne : ds ≠ []) (hzero : ds.head? ≠ some (ch '0'))
      (hds : ∀ c ∈ ds, digitBelow 10 c = true) : Numeral 0 ds (digitsValue 10 0 ds)

/-- White space, a sign or none, a numeral. -/
inductive Subject (base : Nat) : List Byte → Int → Prop where
  | unsigned {ws num : List Byte} {n : Nat} (hws : ∀ c ∈ ws, isspace c = true)
      (hnum : Numeral base num n) : Subject base (ws ++ num) n
  | plus {ws num : List Byte} {n : Nat} (hws : ∀ c ∈ ws, isspace c = true)
      (hnum : Numeral base num n) : Subject base (ws ++ ch '+' :: num) n
  | minus {ws num : List Byte} {n : Nat} (hws : ∀ c ∈ ws, isspace c = true)
      (hnum : Numeral base num n) : Subject base (ws ++ ch '-' :: num) (-n)

/-- The longest prefix of `s` that has the form of a subject, and its value. -/
def LongestSubject (base : Nat) (s pre : List Byte) (v : Int) : Prop :=
  Subject base pre v ∧ pre <+: s ∧
    ∀ pre' v', Subject base pre' v' → pre' <+: s → pre'.length ≤ pre.length

/-- What `strtol` should return, and store to `*endptr`. -/
def StrtolSpec (s : List Byte) (base : Nat) (res : BitVec 32 × List Byte) : Prop :=
  (∃ pre v, LongestSubject base s pre v ∧ res.1.toInt = v ∧ s = pre ++ res.2) ∨
    (∀ pre v, Subject base pre v → ¬ pre <+: s) ∧ res = (0, s)

/-- The denoted value, if there is one, fits a `long`. -/
def Fits (s : List Byte) (base : Nat) : Prop :=
  ∀ pre v, LongestSubject base s pre v → -2 ^ 31 ≤ v ∧ v < 2 ^ 31

/-! ## Characters -/

theorem digitOf_tolower (c : Byte) : digitOf (tolower c) = digitIn c := by
  revert c
  decide +kernel

theorem tolower_eq_zero_iff (c : Byte) : tolower c = ch '0' ↔ c = ch '0' := by
  revert c
  decide +kernel

theorem tolower_eq_x_iff (c : Byte) : tolower c = ch 'x' ↔ isX c = true := by
  revert c
  decide +kernel

theorem tolower_eq_plus_iff (c : Byte) : tolower c = ch '+' ↔ c = ch '+' := by
  revert c
  decide +kernel

theorem tolower_eq_minus_iff (c : Byte) : tolower c = ch '-' ↔ c = ch '-' := by
  revert c
  decide +kernel

/-- A digit is neither white space nor a sign. -/
theorem digitIn_eq_none (c : Byte) (h : isspace c = true ∨ c = ch '+' ∨ c = ch '-') :
    digitIn c = none := by
  revert c
  decide +kernel

theorem digitIn_isX (c : Byte) (h : isX c = true) : digitIn c = some 33 := by
  revert c
  decide +kernel

/-! ## White space and sign -/

/-- A value under the sign that was read. -/
def signed (s : List Byte) (n : Nat) : Int := if isNeg s then -n else n

/-- A numeral begins with a digit. -/
theorem Numeral.exists_cons {base n : Nat} {num : List Byte} (h : Numeral base num n) :
    ∃ c t, num = c :: t ∧ (digitIn c).isSome = true := by
  have hdigit : ∀ {radix : Nat} {ds : List Byte}, ds ≠ [] →
      (∀ c ∈ ds, digitBelow radix c = true) → ∃ c t, ds = c :: t ∧ (digitIn c).isSome = true := by
    intro radix ds hne hds
    obtain ⟨c, t, rfl⟩ := List.exists_cons_of_ne_nil hne
    refine ⟨c, t, rfl, ?_⟩
    have hc := hds c List.mem_cons_self
    rw [digitBelow] at hc
    cases hval : digitIn c with
    | none => simp [hval] at hc
    | some d => rfl
  cases h with
  | plain _ hne hds => exact hdigit hne hds
  | hex => exact ⟨_, _, rfl, by decide⟩
  | octal => exact ⟨_, _, rfl, by decide⟩
  | decimal hne _ hds => exact hdigit hne hds

/-- What follows the white space does not begin with any. -/
theorem dropWhile_isspace {ws t : List Byte} {c : Byte} (hws : ∀ c ∈ ws, isspace c = true)
    (hc : isspace c = false) : (ws ++ c :: t).dropWhile isspace = c :: t := by
  rw [List.dropWhile_append_of_pos hws, List.dropWhile_cons_of_neg (by simp [hc])]

theorem behindSign_space {ws : List Byte} (hws : ∀ c ∈ ws, isspace c = true) :
    behindSign ws = [] ∧ isNeg ws = false := by
  rw [behindSign, isNeg, List.dropWhile_eq_nil_iff.mpr hws]
  exact ⟨rfl, rfl⟩

theorem behindSign_other {ws t : List Byte} {c : Byte} (hws : ∀ c ∈ ws, isspace c = true)
    (hspace : isspace c = false) (hplus : c ≠ ch '+') (hminus : c ≠ ch '-') :
    behindSign (ws ++ c :: t) = c :: t ∧ isNeg (ws ++ c :: t) = false := by
  have hplus' := (tolower_eq_plus_iff c).not.mpr hplus
  have hminus' := (tolower_eq_minus_iff c).not.mpr hminus
  rw [behindSign, isNeg, dropWhile_isspace hws hspace]
  refine ⟨?_, by simpa [deref] using hminus'⟩
  simp only [deref, List.headD_cons, hplus', hminus', or_self, if_false]

/-- Behind white space, a string that begins with a digit is read as it is. -/
theorem behindSign_unsigned {ws t : List Byte} {c : Byte} (hws : ∀ c ∈ ws, isspace c = true)
    (hc : (digitIn c).isSome = true) :
    behindSign (ws ++ c :: t) = c :: t ∧ isNeg (ws ++ c :: t) = false := by
  have hnot : ¬ (isspace c = true ∨ c = ch '+' ∨ c = ch '-') := by
    intro h
    rw [digitIn_eq_none c h] at hc
    exact Bool.noConfusion hc
  push Not at hnot
  exact behindSign_other hws (by simpa using hnot.1) hnot.2.1 hnot.2.2

theorem behindSign_plus {ws t : List Byte} (hws : ∀ c ∈ ws, isspace c = true) :
    behindSign (ws ++ ch '+' :: t) = t ∧ isNeg (ws ++ ch '+' :: t) = false := by
  rw [behindSign, isNeg, dropWhile_isspace hws (by decide)]
  exact ⟨rfl, rfl⟩

theorem behindSign_minus {ws t : List Byte} (hws : ∀ c ∈ ws, isspace c = true) :
    behindSign (ws ++ ch '-' :: t) = t ∧ isNeg (ws ++ ch '-' :: t) = true := by
  rw [behindSign, isNeg, dropWhile_isspace hws (by decide)]
  exact ⟨rfl, rfl⟩

/-- The numeral of a subject is read behind its sign. -/
theorem Subject.behindSign_eq {base : Nat} {s pre : List Byte} {v : Int} (h : Subject base pre v)
    {rest : List Byte} (hs : s = pre ++ rest) :
    ∃ num n, Numeral base num n ∧ behindSign s = num ++ rest ∧ v = signed s n := by
  subst hs
  cases h with
  | @unsigned ws num n hws hnum =>
    obtain ⟨c, t, rfl, hc⟩ := hnum.exists_cons
    have hread := behindSign_unsigned (t := t ++ rest) hws hc
    refine ⟨_, n, hnum, ?_, ?_⟩
    · simpa using hread.1
    · rw [signed]
      simp [hread.2]
  | @plus ws num n hws hnum =>
    have hread := behindSign_plus (t := num ++ rest) hws
    refine ⟨num, n, hnum, ?_, ?_⟩
    · simpa using hread.1
    · rw [signed]
      simp [hread.2]
  | @minus ws num n hws hnum =>
    have hread := behindSign_minus (t := num ++ rest) hws
    refine ⟨num, n, hnum, ?_, ?_⟩
    · simpa using hread.1
    · rw [signed]
      simp [hread.2]

/-- What is in front of a numeral makes it a subject. -/
theorem exists_lead (s : List Byte) : ∃ lead, s = lead ++ behindSign s ∧
    ∀ base num n, Numeral base num n → Subject base (lead ++ num) (signed s n) := by
  obtain ⟨ws, p, hsplit, hws, hhead⟩ : ∃ ws p, s = ws ++ p ∧ (∀ c ∈ ws, isspace c = true) ∧
      ∀ c t, p = c :: t → isspace c = false := by
    refine ⟨s.takeWhile isspace, s.dropWhile isspace, List.takeWhile_append_dropWhile.symm,
      fun c hc => List.mem_takeWhile_imp hc, fun c t hdrop => ?_⟩
    have hne : s.dropWhile isspace ≠ [] := by
      rw [hdrop]
      exact List.cons_ne_nil _ _
    have hnot := List.head_dropWhile_not isspace hne
    simpa only [hdrop, List.head_cons] using hnot
  subst hsplit
  cases p with
  | nil =>
    rw [List.append_nil]
    have hread := behindSign_space hws
    refine ⟨ws, by rw [hread.1, List.append_nil], fun base num n hnum => ?_⟩
    rw [signed, hread.2]
    exact .unsigned hws hnum
  | cons c t =>
    by_cases hplus : c = ch '+'
    · subst hplus
      have hread := behindSign_plus (t := t) hws
      refine ⟨ws ++ [ch '+'], by simp [hread.1], fun base num n hnum => ?_⟩
      rw [signed, hread.2, List.append_assoc]
      exact .plus hws hnum
    by_cases hminus : c = ch '-'
    · subst hminus
      have hread := behindSign_minus (t := t) hws
      refine ⟨ws ++ [ch '-'], by simp [hread.1], fun base num n hnum => ?_⟩
      rw [signed, hread.2, List.append_assoc]
      exact .minus hws hnum
    have hread := behindSign_other (t := t) hws (hhead c t rfl) hplus hminus
    refine ⟨ws, by rw [hread.1], fun base num n hnum => ?_⟩
    rw [signed, hread.2]
    exact .unsigned hws hnum

/-! ## Digits -/

theorem digitBelow_iff {radix : Nat} {c : Byte} :
    digitBelow radix c = true ↔ ∃ d, digitIn c = some d ∧ d < radix := by
  rw [digitBelow]
  cases digitIn c <;> simp

/-- The loop reads all digits of the base. -/
theorem strtolDigits_eq (base : Nat) (p : List Byte) (v : Nat) :
    strtolDigits base p (BitVec.ofNat 32 v) =
      (BitVec.ofNat 32 (digitsValue base v (p.takeWhile (digitBelow base))),
        p.dropWhile (digitBelow base)) := by
  induction p generalizing v with
  | nil => rfl
  | cons c p ih =>
    rw [strtolDigits, digitOf_tolower]
    cases hc : digitIn c with
    | none =>
      have hbelow : ¬ digitBelow base c = true := by simp [digitBelow, hc]
      rw [List.takeWhile_cons_of_neg hbelow, List.dropWhile_cons_of_neg hbelow]
      rfl
    | some d =>
      rw [Option.elim_some]
      by_cases hd : d ≥ base
      · have hbelow : ¬ digitBelow base c = true := by
          simp [digitBelow, hc, Nat.not_lt.mpr hd]
        rw [if_pos hd, List.takeWhile_cons_of_neg hbelow, List.dropWhile_cons_of_neg hbelow]
        rfl
      · have hbelow : digitBelow base c = true := by
          simp [digitBelow, hc, Nat.not_le.mp hd]
        rw [if_neg hd, List.takeWhile_cons_of_pos hbelow, List.dropWhile_cons_of_pos hbelow,
          ← BitVec.ofNat_mul, ← BitVec.ofNat_add, ih, digitsValue, digitsValue, List.foldl_cons,
          hc, Option.getD_some]

theorem strtolDigits_zero (base : Nat) (p : List Byte) :
    strtolDigits base p 0 =
      (BitVec.ofNat 32 (digitsValue base 0 (p.takeWhile (digitBelow base))),
        p.dropWhile (digitBelow base)) :=
  strtolDigits_eq base p 0

/-- Digits in front of a string are in front of what `takeWhile` takes. -/
theorem length_le_takeWhile {radix : Nat} {ds p : List Byte}
    (hds : ∀ c ∈ ds, digitBelow radix c = true) (hp : ds <+: p) :
    ds.length ≤ (p.takeWhile (digitBelow radix)).length := by
  obtain ⟨t, rfl⟩ := hp
  rw [List.takeWhile_append_of_pos hds, List.length_append]
  omega

/-- The longest numeral in front of `r`, and its value. -/
def LongestNumeral (base : Nat) (r num : List Byte) (n : Nat) : Prop :=
  Numeral base num n ∧ num <+: r ∧
    ∀ num' n', Numeral base num' n' → num' <+: r → num'.length ≤ num.length

/-! ## What the code reads as a numeral -/

section Number

variable {base : Nat} {x : Byte} {r t : List Byte}

theorem digitBelow_zero {radix : Nat} (h : 0 < radix) : digitBelow radix (ch '0') = true :=
  digitBelow_iff.mpr ⟨0, by decide, h⟩

theorem digitBelow_isX {radix : Nat} (hx : isX x = true) :
    digitBelow radix x = true ↔ 33 < radix := by
  rw [digitBelow_iff, digitIn_isX x hx]
  simp

theorem tolower_of_isX (hx : isX x = true) : tolower x = ch 'x' :=
  (tolower_eq_x_iff x).mpr hx

/-- A leading zero adds nothing. -/
theorem strtolDigits_leading (hbase : 0 < base) :
    strtolDigits base (ch '0' :: t) 0 = strtolDigits base t 0 := by
  have hdigit : digitOf (tolower (ch '0')) = some 0 := by decide
  rw [strtolDigits, hdigit, Option.elim_some, if_neg (Nat.not_le.mpr hbase)]
  simp

/-- The `x` ends the digits of a base in which it is not a digit. -/
theorem strtolDigits_x (hx : isX x = true) (hbase : base ≤ 33) :
    strtolDigits base (x :: t) 0 = (0, x :: t) := by
  have hnot : ¬ digitBelow base x = true := by
    rw [digitBelow_isX hx]
    omega
  rw [strtolDigits_zero, List.takeWhile_cons_of_neg hnot, List.dropWhile_cons_of_neg hnot]
  rfl

/-- `0x`, where it is a prefix. -/
theorem strtolNumber_hex (hx : isX x = true) :
    strtolNumber (ch '0' :: x :: t) 16 = strtolDigits 16 t 0 := by
  have hlow := tolower_of_isX hx
  simp [strtolNumber, deref, (tolower_eq_zero_iff _).mpr, hlow]

/-- `0x`, where it is not. -/
theorem strtolNumber_x (hx : isX x = true) (hbase : base ≠ 16) :
    strtolNumber (ch '0' :: x :: t) base = (0, x :: t) := by
  have hlow := tolower_of_isX hx
  have hzero : tolower (ch '0') = ch '0' := by decide
  rw [strtolNumber]
  simp only [deref, List.headD_cons, List.tail_cons, hzero, hlow, if_true]
  by_cases h0 : base = 0
  · subst h0
    rfl
  · simp only [if_neg h0, ne_eq, hbase, not_false_eq_true, if_true]

/-- A zero without an `x`. -/
theorem strtolNumber_zero (ht : isX (deref t) = false) :
    strtolNumber (ch '0' :: t) base = strtolDigits (if base = 0 then 8 else base) t 0 := by
  have hzero : tolower (ch '0') = ch '0' := by decide
  have hlow : ¬ tolower (deref t) = ch 'x' := by
    rw [tolower_eq_x_iff, ht]
    exact Bool.false_ne_true
  rw [strtolNumber]
  simp only [deref, List.headD_cons, List.tail_cons, hzero, if_true]
  exact if_neg hlow

/-- No zero in front. -/
theorem strtolNumber_other (hr : deref r ≠ ch '0') :
    strtolNumber r base = strtolDigits (if base = 0 then 10 else base) r 0 :=
  if_neg ((tolower_eq_zero_iff _).not.mpr hr)

theorem deref_of_isPrefix {c : Byte} (h : c :: t <+: r) : deref r = c := by
  obtain ⟨rest, rfl⟩ := h
  rfl

theorem tail_of_isPrefix {c : Byte} (h : c :: t <+: r) : t <+: r.tail := by
  obtain ⟨rest, rfl⟩ := h
  exact ⟨rest, rfl⟩

theorem eq_cons_of_deref {c : Byte} (hc : c ≠ 0) (h : deref r = c) : r = c :: r.tail := by
  cases r with
  | nil => exact absurd h.symm hc
  | cons a t =>
    rw [deref, List.headD_cons] at h
    rw [h, List.tail_cons]

theorem isX_ne_zero (hx : isX x = true) : x ≠ 0 := by
  rintro rfl
  revert hx
  decide

/-- The first two characters are `0x`. -/
def HexPrefixed (r : List Byte) : Prop := deref r = ch '0' ∧ isX (deref r.tail) = true

instance : Decidable (HexPrefixed r) := inferInstanceAs (Decidable (_ ∧ _))

theorem HexPrefixed.eq_cons (h : HexPrefixed r) :
    ∃ x t, isX x = true ∧ r = ch '0' :: x :: t := by
  have hr := eq_cons_of_deref (by decide) h.1
  have ht := eq_cons_of_deref (isX_ne_zero h.2) rfl
  exact ⟨_, _, h.2, hr.trans (congrArg (ch '0' :: ·) ht)⟩

theorem not_isX_of_not_hexPrefixed (h : ¬ HexPrefixed (ch '0' :: t)) : isX (deref t) = false :=
  Bool.eq_false_iff.mpr fun hx => h ⟨rfl, hx⟩

/-- Digits of the base, as the code reads them where it looks at no prefix. -/
theorem strtolNumber_plain (hbase : base ≠ 0)
    (h : HexPrefixed r → base ≠ 16 ∧ base ≤ 33) :
    strtolNumber r base = strtolDigits base r 0 := by
  by_cases hr : deref r = ch '0'
  · obtain ⟨t, rfl⟩ : ∃ t, r = ch '0' :: t := ⟨r.tail, eq_cons_of_deref (by decide) hr⟩
    rw [strtolDigits_leading (Nat.pos_of_ne_zero hbase)]
    by_cases hhex : HexPrefixed (ch '0' :: t)
    · obtain ⟨x, t', hx, heq⟩ := hhex.eq_cons
      obtain rfl : t = x :: t' := (List.cons.inj heq).2
      rw [strtolNumber_x hx (h hhex).1, strtolDigits_x hx (h hhex).2]
    · rw [strtolNumber_zero (not_isX_of_not_hexPrefixed hhex), if_neg hbase]
  · rw [strtolNumber_other hr, if_neg hbase]

/-- Octal digits behind a zero. -/
theorem strtolNumber_octal : strtolNumber (ch '0' :: t) 0 = strtolDigits 8 t 0 := by
  by_cases hhex : HexPrefixed (ch '0' :: t)
  · obtain ⟨x, t', hx, heq⟩ := hhex.eq_cons
    obtain rfl : t = x :: t' := (List.cons.inj heq).2
    rw [strtolNumber_x hx (by decide), strtolDigits_x hx (by decide)]
  · rw [strtolNumber_zero (not_isX_of_not_hexPrefixed hhex), if_pos rfl]

/-! ## The longest numeral -/

/-- The base of the digits that a numeral without a leading zero has. -/
def digitBase (base : Nat) : Nat := if base = 0 then 10 else base

/-- `0x`, with a hexadecimal digit behind it. -/
def HexNumeral (r : List Byte) : Prop :=
  HexPrefixed r ∧ digitBelow 16 (deref r.tail.tail) = true

instance : Decidable (HexNumeral r) := inferInstanceAs (Decidable (_ ∧ _))

theorem takeWhile_ne_nil {radix : Nat} (h : digitBelow radix (deref r) = true) :
    r.takeWhile (digitBelow radix) ≠ [] := by
  cases r with
  | nil =>
    rw [digitBelow_iff] at h
    obtain ⟨d, hd, -⟩ := h
    have hnul : digitIn (deref []) = none := by decide
    rw [hnul] at hd
    cases hd
  | cons c t =>
    rw [List.takeWhile_cons_of_pos (show digitBelow radix c = true from h)]
    exact List.cons_ne_nil _ _

theorem takeWhile_below (radix : Nat) (r : List Byte) :
    ∀ c ∈ r.takeWhile (digitBelow radix), digitBelow radix c = true :=
  fun _ hc => List.mem_takeWhile_imp hc

/-- Digits begin with a digit. -/
theorem digitBelow_deref {radix : Nat} {ds : List Byte} (hne : ds ≠ [])
    (hds : ∀ c ∈ ds, digitBelow radix c = true) (hr : ds <+: r) :
    digitBelow radix (deref r) = true := by
  obtain ⟨c, t, rfl⟩ := List.exists_cons_of_ne_nil hne
  rw [deref_of_isPrefix hr]
  exact hds c List.mem_cons_self

theorem hexNumeral_of_isPrefix {ds : List Byte} (hx : isX x = true) (hne : ds ≠ [])
    (hds : ∀ c ∈ ds, digitBelow 16 c = true) (hr : ch '0' :: x :: ds <+: r) : HexNumeral r := by
  have htail := tail_of_isPrefix hr
  refine ⟨⟨deref_of_isPrefix hr, ?_⟩, digitBelow_deref hne hds (tail_of_isPrefix htail)⟩
  rw [deref_of_isPrefix htail]
  exact hx

theorem longest_plain (hbase : base ≠ 0) (hdigit : digitBelow base (deref r) = true)
    (hhex : base = 16 → ¬ HexNumeral r) :
    LongestNumeral base r (r.takeWhile (digitBelow base))
      (digitsValue base 0 (r.takeWhile (digitBelow base))) := by
  refine ⟨.plain hbase (takeWhile_ne_nil hdigit) (takeWhile_below base r),
    List.takeWhile_prefix _, fun num n hnum hr => ?_⟩
  cases hnum with
  | plain _ _ hds => exact length_le_takeWhile hds hr
  | hex hbase' hx hne hds =>
    exact absurd (hexNumeral_of_isPrefix hx hne hds hr) (hhex (hbase'.resolve_left hbase))
  | octal => exact absurd rfl hbase
  | decimal => exact absurd rfl hbase

theorem longest_hex (hbase : base = 0 ∨ base = 16) (hx : isX x = true)
    (hdigit : digitBelow 16 (deref t) = true) :
    LongestNumeral base (ch '0' :: x :: t) (ch '0' :: x :: t.takeWhile (digitBelow 16))
      (digitsValue 16 0 (t.takeWhile (digitBelow 16))) := by
  -- short of the letter there is room for the zero only
  have hshort : ∀ radix, radix ≤ 33 → ∀ ds : List Byte, (∀ c ∈ ds, digitBelow radix c = true) →
      ds <+: x :: t → ds.length = 0 := by
    intro radix hradix ds hds hprefix
    have hle := length_le_takeWhile hds hprefix
    have hnot : ¬ digitBelow radix x = true := by
      rw [digitBelow_isX hx]
      omega
    rw [List.takeWhile_cons_of_neg hnot, List.length_nil] at hle
    omega
  refine ⟨.hex hbase hx (takeWhile_ne_nil hdigit) (takeWhile_below 16 t),
    (List.prefix_cons_inj _).mpr ((List.prefix_cons_inj _).mpr (List.takeWhile_prefix _)),
    fun num n hnum hr => ?_⟩
  rw [List.length_cons, List.length_cons]
  cases hnum with
  | plain hne' hne hds =>
    obtain rfl := hbase.resolve_left hne'
    obtain ⟨c, ds, rfl⟩ := List.exists_cons_of_ne_nil hne
    have hlen := hshort 16 (by decide) ds (fun c hc => hds c (List.mem_cons_of_mem _ hc))
      (tail_of_isPrefix hr)
    rw [List.length_cons]
    omega
  | hex _ _ _ hds =>
    have hle := length_le_takeWhile hds (tail_of_isPrefix (tail_of_isPrefix hr))
    rw [List.length_cons, List.length_cons]
    exact Nat.succ_le_succ (Nat.succ_le_succ hle)
  | octal hds =>
    have hlen := hshort 8 (by decide) _ hds (tail_of_isPrefix hr)
    rw [List.length_cons]
    omega
  | decimal hne hzero _ =>
    obtain ⟨c, ds, rfl⟩ := List.exists_cons_of_ne_nil hne
    exact absurd (congrArg some (deref_of_isPrefix hr).symm) hzero

theorem longest_octal (hhex : ¬ HexNumeral (ch '0' :: t)) :
    LongestNumeral 0 (ch '0' :: t) (ch '0' :: t.takeWhile (digitBelow 8))
      (digitsValue 8 0 (t.takeWhile (digitBelow 8))) := by
  refine ⟨.octal (takeWhile_below 8 t), (List.prefix_cons_inj _).mpr (List.takeWhile_prefix _),
    fun num n hnum hr => ?_⟩
  cases hnum with
  | plain hbase => exact absurd rfl hbase
  | hex _ hx hne hds => exact absurd (hexNumeral_of_isPrefix hx hne hds hr) hhex
  | octal hds =>
    have hle := length_le_takeWhile hds (tail_of_isPrefix hr)
    rw [List.length_cons, List.length_cons]
    exact Nat.succ_le_succ hle
  | decimal hne hzero _ =>
    obtain ⟨c, ds, rfl⟩ := List.exists_cons_of_ne_nil hne
    exact absurd (congrArg some (deref_of_isPrefix hr).symm) hzero

theorem longest_decimal (hzero : deref r ≠ ch '0') (hdigit : digitBelow 10 (deref r) = true) :
    LongestNumeral 0 r (r.takeWhile (digitBelow 10))
      (digitsValue 10 0 (r.takeWhile (digitBelow 10))) := by
  have hhead : (r.takeWhile (digitBelow 10)).head? ≠ some (ch '0') := by
    obtain ⟨c, t, heq⟩ := List.exists_cons_of_ne_nil (takeWhile_ne_nil hdigit)
    have hprefix : c :: t <+: r := by
      rw [← heq]
      exact List.takeWhile_prefix _
    rw [heq, List.head?_cons, ← deref_of_isPrefix hprefix]
    exact fun h => hzero (Option.some.inj h)
  refine ⟨.decimal (takeWhile_ne_nil hdigit) hhead (takeWhile_below 10 r),
    List.takeWhile_prefix _, fun num n hnum hr => ?_⟩
  cases hnum with
  | plain hbase => exact absurd rfl hbase
  | hex => exact absurd (deref_of_isPrefix hr) hzero
  | octal => exact absurd (deref_of_isPrefix hr) hzero
  | decimal _ _ hds => exact length_le_takeWhile hds hr

/-- Without a digit in front there is no numeral. -/
theorem digitBelow_of_numeral {num : List Byte} {n : Nat} (hnum : Numeral base num n)
    (hr : num <+: r) : digitBelow (digitBase base) (deref r) = true := by
  have hpos : 0 < digitBase base := by
    rw [digitBase]
    split <;> omega
  cases hnum with
  | plain hbase hne hds =>
    rw [digitBase, if_neg hbase]
    exact digitBelow_deref hne hds hr
  | hex =>
    rw [deref_of_isPrefix hr]
    exact digitBelow_zero hpos
  | octal =>
    rw [deref_of_isPrefix hr]
    exact digitBelow_zero hpos
  | decimal hne _ hds => exact digitBelow_deref hne hds hr

/-- The grammar is unambiguous. -/
theorem Numeral.unique {num : List Byte} {n n' : Nat} (h : Numeral base num n)
    (h' : Numeral base num n') : n = n' := by
  have hx : ∀ {radix : Nat} {x : Byte} {ds : List Byte}, isX x = true → radix ≤ 33 →
      (∀ c ∈ x :: ds, digitBelow radix c = true) → False := by
    intro radix x ds hx hradix hds
    have hlarge := (digitBelow_isX hx).mp (hds x List.mem_cons_self)
    omega
  cases h with
  | plain hbase hne hds =>
    cases h' with
    | plain => rfl
    | hex hbase' hisX _ _ =>
      obtain rfl := hbase'.resolve_left hbase
      exact (hx hisX (by decide) fun c hc => hds c (List.mem_cons_of_mem _ hc)).elim
    | octal => exact absurd rfl hbase
    | decimal => exact absurd rfl hbase
  | hex hbase hisX _ _ =>
    cases h' with
    | plain hbase' _ hds =>
      obtain rfl := hbase.resolve_left hbase'
      exact (hx hisX (by decide) fun c hc => hds c (List.mem_cons_of_mem _ hc)).elim
    | hex => rfl
    | octal hds => exact (hx hisX (by decide) hds).elim
    | decimal _ hzero _ => exact absurd rfl hzero
  | octal hds =>
    cases h' with
    | plain hbase' => exact absurd rfl hbase'
    | hex _ hisX _ _ => exact (hx hisX (by decide) hds).elim
    | octal => rfl
    | decimal _ hzero _ => exact absurd rfl hzero
  | decimal _ hzero _ =>
    cases h' with
    | plain hbase' => exact absurd rfl hbase'
    | hex => exact absurd rfl hzero
    | octal => exact absurd rfl hzero
    | decimal => rfl

/-! ## Numerals, read and misread -/

/-- The prefixes that the code takes for something else. -/
def PrefixMisread (r : List Byte) (base : Nat) : Prop :=
  HexPrefixed r ∧ (base = 0 ∧ digitBelow 16 (deref r.tail.tail) = true ∨
    base = 16 ∧ digitBelow 16 (deref r.tail.tail) = false ∨ 34 ≤ base)

theorem strtolNumber_of_digit (hdigit : digitBelow (digitBase base) (deref r) = true)
    (hok : ¬ PrefixMisread r base) :
    ∃ num n rest, LongestNumeral base r num n ∧ num ++ rest = r ∧
      strtolNumber r base = (BitVec.ofNat 32 n, rest) := by
  by_cases hbase : base = 0
  · subst hbase
    by_cases hzero : deref r = ch '0'
    · have hhex : ¬ HexNumeral r := fun h => hok ⟨h.1, .inl ⟨rfl, h.2⟩⟩
      obtain ⟨t, rfl⟩ : ∃ t, r = ch '0' :: t := ⟨r.tail, eq_cons_of_deref (by decide) hzero⟩
      refine ⟨_, _, t.dropWhile (digitBelow 8), longest_octal hhex, ?_, ?_⟩
      · rw [List.cons_append, List.takeWhile_append_dropWhile]
      · rw [strtolNumber_octal, strtolDigits_zero]
    · refine ⟨_, _, r.dropWhile (digitBelow 10), longest_decimal hzero hdigit,
        List.takeWhile_append_dropWhile, ?_⟩
      rw [strtolNumber_other hzero, if_pos rfl, strtolDigits_zero]
  · rw [digitBase, if_neg hbase] at hdigit
    by_cases hhex : base = 16 ∧ HexNumeral r
    · obtain ⟨rfl, hprefixed, hnext⟩ := hhex
      obtain ⟨x, t, hx, rfl⟩ := hprefixed.eq_cons
      refine ⟨_, _, t.dropWhile (digitBelow 16), longest_hex (.inr rfl) hx hnext, ?_, ?_⟩
      · rw [List.cons_append, List.cons_append, List.takeWhile_append_dropWhile]
      · rw [strtolNumber_hex hx, strtolDigits_zero]
    · refine ⟨_, _, r.dropWhile (digitBelow base),
        longest_plain hbase hdigit fun h16 h => hhex ⟨h16, h⟩,
        List.takeWhile_append_dropWhile, ?_⟩
      have hplain : HexPrefixed r → base ≠ 16 ∧ base ≤ 33 := by
        intro hprefixed
        constructor
        · rintro rfl
          refine hok ⟨hprefixed, .inr (.inl ⟨rfl, Bool.eq_false_iff.mpr fun hnext => ?_⟩)⟩
          exact hhex ⟨rfl, hprefixed, hnext⟩
        · by_contra hlarge
          exact hok ⟨hprefixed, .inr (.inr (by omega))⟩
      rw [strtolNumber_plain hbase hplain, strtolDigits_zero]

theorem strtolNumber_of_misread (hbad : PrefixMisread r base) {num : List Byte} {n : Nat}
    (hnum : LongestNumeral base r num n) : num ++ (strtolNumber r base).2 ≠ r := by
  obtain ⟨hprefixed, hbase⟩ := hbad
  obtain ⟨x, t, hx, rfl⟩ := hprefixed.eq_cons
  intro heq
  -- where the code stops at the `x`, it has read a zero
  have hstop : base ≠ 16 → num = [ch '0'] := by
    intro hne
    rw [strtolNumber_x hx hne] at heq
    exact List.append_cancel_right (heq.trans (List.singleton_append (l := x :: t)).symm)
  rcases hbase with ⟨rfl, hnext⟩ | ⟨rfl, hnext⟩ | hlarge
  · have hlonger := hnum.2.2 _ _ (longest_hex (.inl rfl) hx hnext).1
      (longest_hex (.inl rfl) hx hnext).2.1
    rw [hstop (by decide)] at hlonger
    simp at hlonger
  · have hnot : ¬ digitBelow 16 x = true := by
      rw [digitBelow_isX hx]
      decide
    have hrest : (strtolNumber (ch '0' :: x :: t) 16).2 = t := by
      rw [strtolNumber_hex hx, strtolDigits_zero]
      cases t with
      | nil => rfl
      | cons c t => exact List.dropWhile_cons_of_neg (Bool.eq_false_iff.mp hnext)
    rw [hrest] at heq
    have hread : num = [ch '0', x] :=
      List.append_cancel_right (heq.trans (show _ = [ch '0', x] ++ t from rfl))
    rw [hread] at hnum
    cases hnum.1 with
    | plain _ _ hds => exact hnot (hds x (List.mem_cons_of_mem _ List.mem_cons_self))
    | hex _ _ hne => exact hne rfl
  · have hds : ∀ c ∈ [ch '0', x], digitBelow base c = true := by
      intro c hc
      rcases List.mem_cons.mp hc with rfl | hc
      · exact digitBelow_zero (by omega)
      · obtain rfl := List.mem_singleton.mp hc
        exact (digitBelow_isX hx).mpr (by omega)
    have hlonger := hnum.2.2 _ _ (.plain (by omega) (List.cons_ne_nil _ _) hds) ⟨t, rfl⟩
    rw [hstop (by omega)] at hlonger
    simp at hlonger

theorem strtolNumber_of_not_digit
    (hdigit : digitBelow (digitBase base) (deref r) = false) : strtolNumber r base = (0, r) := by
  have hnot : ¬ digitBelow (digitBase base) (deref r) = true := by
    rw [hdigit]
    exact Bool.false_ne_true
  have hzero : deref r ≠ ch '0' := by
    intro h
    rw [h, digitBelow_zero] at hnot
    · exact hnot rfl
    · rw [digitBase]
      split <;> omega
  rw [strtolNumber_other hzero]
  cases r with
  | nil => rfl
  | cons c t =>
    have hhead : ¬ digitBelow (if base = 0 then 10 else base) c = true := hnot
    rw [strtolDigits_zero, List.takeWhile_cons_of_neg hhead, List.dropWhile_cons_of_neg hhead]
    rfl

end Number

/-! ## The whole string -/

section Whole

variable {base n : Nat} {s num : List Byte}

theorem LongestNumeral.subject (h : LongestNumeral base (behindSign s) num n) :
    ∃ pre, LongestSubject base s pre (signed s n) ∧
      ∀ rest, num ++ rest = behindSign s → s = pre ++ rest := by
  obtain ⟨lead, hs, hlead⟩ := exists_lead s
  obtain ⟨tail, htail⟩ := h.2.1
  refine ⟨lead ++ num, ⟨hlead base num n h.1, ⟨tail, ?_⟩, fun pre' v' hsub hpre => ?_⟩, ?_⟩
  · rw [List.append_assoc, htail, ← hs]
  · obtain ⟨rest, hrest⟩ := hpre
    obtain ⟨num', n', hnum', hbehind, -⟩ := hsub.behindSign_eq hrest.symm
    have hle := h.2.2 num' n' hnum' ⟨rest, hbehind.symm⟩
    have hlen := congrArg List.length (hrest.trans hs)
    rw [hbehind] at hlen
    simp only [List.length_append] at hlen ⊢
    omega
  · intro rest hrest
    rw [List.append_assoc, hrest, ← hs]

theorem LongestSubject.numeral {pre rest : List Byte} {v : Int} (h : LongestSubject base s pre v)
    (hs : s = pre ++ rest) :
    ∃ num n, LongestNumeral base (behindSign s) num n ∧ num ++ rest = behindSign s ∧
      v = signed s n := by
  obtain ⟨num, n, hnum, hbehind, hv⟩ := h.1.behindSign_eq hs
  obtain ⟨lead, hsplit, hlead⟩ := exists_lead s
  refine ⟨num, n, ⟨hnum, ⟨rest, hbehind.symm⟩, fun num' n' hnum' hprefix => ?_⟩, hbehind.symm, hv⟩
  obtain ⟨tail, htail⟩ := hprefix
  have hle := h.2.2 _ _ (hlead base num' n' hnum')
    ⟨tail, by rw [List.append_assoc, htail, ← hsplit]⟩
  have hlen := congrArg List.length (hs.symm.trans hsplit)
  rw [hbehind] at hlen
  simp only [List.length_append] at hlen hle
  omega

/-- One value is enough to tell that the string fits. -/
theorem fits_of_longest (h : LongestNumeral base (behindSign s) num n)
    (hrange : -2 ^ 31 ≤ signed s n ∧ signed s n < 2 ^ 31) : Fits s base := by
  intro pre v hlongest
  obtain ⟨rest, hrest⟩ := hlongest.2.1
  obtain ⟨num', n', hnum', -, rfl⟩ := hlongest.numeral hrest.symm
  obtain rfl : num' = num := by
    refine List.IsPrefix.eq_of_length
      (List.prefix_of_prefix_length_le hnum'.2.1 h.2.1 ?_) (Nat.le_antisymm ?_ ?_)
    · exact h.2.2 _ _ hnum'.1 hnum'.2.1
    · exact h.2.2 _ _ hnum'.1 hnum'.2.1
    · exact hnum'.2.2 _ _ h.1 h.2.1
  rwa [hnum'.1.unique h.1]

/-- The sign is applied to `val`. -/
theorem toInt_signed (hfit : -2 ^ 31 ≤ signed s n ∧ signed s n < 2 ^ 31) :
    (if isNeg s then -BitVec.ofNat 32 n else BitVec.ofNat 32 n).toInt = signed s n := by
  rw [signed] at hfit ⊢
  split at hfit
  · rename_i hneg
    rw [if_pos hneg, if_pos hneg, BitVec.toInt_eq_toNat_cond, BitVec.toNat_neg,
      BitVec.toNat_ofNat]
    omega
  · rename_i hneg
    rw [if_neg hneg, if_neg hneg, BitVec.toInt_eq_toNat_cond, BitVec.toNat_ofNat]
    omega

/-- The strings, in a base, that `strtol` does not read as C does. -/
def Misread (s : List Byte) (base : Nat) : Prop :=
  digitBelow (digitBase base) (deref (behindSign s)) = false ∧ behindSign s ≠ s ∨
    PrefixMisread (behindSign s) base

/-- A string that is read as C does is not misread. -/
theorem not_misread_of_spec (hbase : base = 0 ∨ 2 ≤ base ∧ base ≤ 36)
    (hspec : StrtolSpec s base (strtol s base)) : ¬ Misread s base := by
  rcases hspec with ⟨pre, v, hlongest, -, hs⟩ | ⟨hnone, hres⟩
  · obtain ⟨num, n, hnum, hsplit, -⟩ := hlongest.numeral hs
    rintro (⟨hdigit, -⟩ | hbad)
    · rw [digitBelow_of_numeral hnum.1 hnum.2.1] at hdigit
      exact Bool.noConfusion hdigit
    · exact strtolNumber_of_misread hbad hnum hsplit
  · rintro (⟨hdigit, hne⟩ | hbad)
    · have hend : (strtolNumber (behindSign s) base).2 = s := congrArg Prod.snd hres
      rw [strtolNumber_of_not_digit hdigit] at hend
      exact hne hend
    · obtain ⟨x, t, hx, hr⟩ := hbad.1.eq_cons
      obtain ⟨lead, hs, hlead⟩ := exists_lead s
      obtain ⟨n, hzero⟩ : ∃ n, Numeral base [ch '0'] n := by
        rcases hbase with rfl | hbase
        · exact ⟨_, .octal fun c hc => absurd hc List.not_mem_nil⟩
        · refine ⟨_, .plain (by omega) (List.cons_ne_nil _ _) fun c hc => ?_⟩
          obtain rfl := List.mem_singleton.mp hc
          exact digitBelow_zero (by omega)
      refine hnone _ _ (hlead base _ n hzero) ⟨x :: t, ?_⟩
      rw [List.append_assoc, List.singleton_append, ← hr, ← hs]

/-- All other strings are read as C does. -/
theorem spec_of_not_misread (hfit : Fits s base) (hok : ¬ Misread s base) :
    StrtolSpec s base (strtol s base) := by
  rw [Misread, not_or] at hok
  cases hdigit : digitBelow (digitBase base) (deref (behindSign s)) with
  | true =>
    obtain ⟨num, n, rest, hnum, hsplit, hread⟩ := strtolNumber_of_digit hdigit hok.2
    obtain ⟨pre, hlongest, hpre⟩ := hnum.subject
    refine .inl ⟨pre, _, hlongest, ?_, ?_⟩
    · rw [strtol, hread]
      exact toInt_signed (hfit pre _ hlongest)
    · rw [strtol, hread]
      exact hpre rest hsplit
  | false =>
    have hsame : behindSign s = s := by
      by_contra hne
      exact hok.1 ⟨hdigit, hne⟩
    refine .inr ⟨fun pre v hsub hpre => ?_, ?_⟩
    · obtain ⟨rest, hrest⟩ := hpre
      obtain ⟨num, n, hnum, hbehind, -⟩ := hsub.behindSign_eq hrest.symm
      rw [digitBelow_of_numeral hnum ⟨rest, hbehind.symm⟩] at hdigit
      exact Bool.noConfusion hdigit
    · rw [strtol, strtolNumber_of_not_digit hdigit, hsame]
      simp

/-- `strtol` reads a string as C does exactly if it does not misread it. -/
theorem strtol_correct_iff (hbase : base = 0 ∨ 2 ≤ base ∧ base ≤ 36) (hfit : Fits s base) :
    StrtolSpec s base (strtol s base) ↔ ¬ Misread s base :=
  ⟨not_misread_of_spec hbase, spec_of_not_misread hfit⟩

end Whole

/-- `"0x1A"`. -/
def hexText : List Byte := [ch '0', ch 'x', ch '1', ch 'A']

theorem longest_hexText {base : Nat} (hbase : base = 0 ∨ base = 16) :
    LongestNumeral base (behindSign hexText) hexText 26 :=
  longest_hex hbase (by decide) (by decide)

/-- In base 16 it is read in full ... -/
theorem strtol_correct_hexText :
    (16 = 0 ∨ 2 ≤ 16 ∧ 16 ≤ 36) ∧ Fits hexText 16 ∧ StrtolSpec hexText 16 (26, []) := by
  have hfit : Fits hexText 16 := fits_of_longest (longest_hexText (.inr rfl)) (by decide)
  have hrun : strtol hexText 16 = (26, []) := by decide
  have hok : ¬ Misread hexText 16 := by
    rintro (⟨hdigit, -⟩ | ⟨-, ⟨hbase, -⟩ | ⟨-, hnext⟩ | hbase⟩)
    · exact absurd hdigit (by decide)
    · exact absurd hbase (by decide)
    · exact absurd hnext (by decide)
    · exact absurd hbase (by decide)
  refine ⟨by decide, hfit, ?_⟩
  rw [← hrun]
  exact (strtol_correct_iff (by decide) hfit).mpr hok

/-- ... and in base 0, where it is as good, as a zero with the `x` behind it. -/
theorem strtol_misread_hexText :
    ¬ ∀ (s : List Byte) (base : Nat), base = 0 ∨ 2 ≤ base ∧ base ≤ 36 → Fits s base →
      StrtolSpec s base (strtol s base) := by
  intro hclaim
  have hfit : Fits hexText 0 := fits_of_longest (longest_hexText (.inl rfl)) (by decide)
  have hbad : Misread hexText 0 := .inr ⟨by decide, .inl ⟨rfl, by decide⟩⟩
  exact not_misread_of_spec (.inl rfl) (hclaim hexText 0 (.inl rfl) hfit) hbad

end FlashFloppyTestbed
