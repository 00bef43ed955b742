/-
  NumberFormat.lean --- what the conversions of an integer print.

  A directive is `%`, perhaps the flag `0`, a width, perhaps `h` or `hh`, and one of
  `d`, `i`, `u`, `o`, `x` and `X`.  `Directive.Denotes` says what it should print of its
  argument; `Directive.emits_field` is what it prints.

  The two differ in `%hhd` and `%hhi`: `x = (char)x` is meant to extend the sign, as
  `x = (short)x` does, but `Rules.mk` does not make `char` signed.
-/
import FlashFloppyTestbed.Snprintf
import Mathlib.Algebra.Group.Int.Defs

set_option autoImplicit false

namespace FlashFloppyTestbed

/-! ## Directives -/

/-- The length modifiers. -/
inductive Modifier where
  | word
  | h
  | hh
  deriving DecidableEq

/-- A length modifier in the format string. -/
def Modifier.text : Modifier → List Byte
  | .word => []
  | .h => [ch 'h']
  | .hh => [ch 'h', ch 'h']

/-- How many bits of the argument count. -/
def Modifier.bits : Modifier → Nat
  | .word => 32
  | .h => 16
  | .hh => 8

/-- The conversions of an integer. -/
inductive Conversion where
  | d
  | i
  | u
  | o
  | x
  | X
  deriving DecidableEq

namespace Conversion

/-- A conversion in the format string. -/
def char : Conversion → Byte
  | .d => ch 'd'
  | .i => ch 'i'
  | .u => ch 'u'
  | .o => ch 'o'
  | .x => ch 'x'
  | .X => ch 'X'

def base : Conversion → Nat
  | .d | .i | .u => 10
  | .o => 8
  | .x | .X => 16

def signed : Conversion → Bool
  | .d | .i => true
  | _ => false

def upper : Conversion → Bool
  | .X => true
  | _ => false

end Conversion

/-- The numeral of `n` in some base, without leading zeros. -/
def numeralText (base : Nat) (upper : Bool) (n : Nat) : List Byte :=
  (Nat.toDigits base n).map fun c => ch (if upper then c.toUpper else c)

/-- A directive.  With `star`, the width is an argument; a width of 0 may also be left out.
`width` is an `int`. -/
structure Directive where
  zero : Bool
  star : Bool
  width : Nat
  modifier : Modifier
  conversion : Conversion
  width_lt : width < 2 ^ 31

namespace Directive

/-- The width in the format string. -/
def widthText (d : Directive) : List Byte :=
  if d.star then [ch '*'] else if d.width = 0 then [] else numeralText 10 false d.width

/-- A directive in the format string. -/
def text (d : Directive) : List Byte :=
  ch '%' :: ((if d.zero then [ch '0'] else []) ++ d.widthText ++ d.modifier.text ++
    [d.conversion.char])

/-- The arguments of a directive that prints `x`. -/
def args (d : Directive) (x : BitVec 32) : List Arg :=
  (if d.star then [.word (BitVec.ofNat 32 d.width)] else []) ++ [.word x]

/-- The number that a directive is given. -/
def value (d : Directive) (x : BitVec 32) : Int :=
  let y := x.setWidth d.modifier.bits
  if d.conversion.signed then y.toInt else y.toNat

/-- The sign of a number. -/
def sign (z : Int) : List Byte := if z < 0 then [ch '-'] else []

/-- The digits of a number. -/
def digits (d : Directive) (z : Int) : List Byte :=
  numeralText d.conversion.base d.conversion.upper z.natAbs

/-- A field that denotes `z`: the sign and the digits of `z`, with spaces in front of the
sign or zeros behind it, as wide as needed for the digits and the width. -/
structure Denotes (d : Directive) (z : Int) (field : List Byte) : Prop where
  padded : ∃ pad, field =
    if d.zero then sign z ++ List.replicate pad (ch '0') ++ d.digits z
    else List.replicate pad (ch ' ') ++ sign z ++ d.digits z
  length : field.length = max d.width (sign z ++ d.digits z).length

/-- Wherever it stands, a directive prints `field`, and nothing else. -/
def Emits (d : Directive) (x : BitVec 32) (field : List Byte) : Prop :=
  ∀ (last : Nat) (format : List Byte) (ap : List Arg) (o : Cursor),
    vsnprintfLoop last (d.text ++ format) (d.args x ++ ap) o =
      vsnprintfLoop last format ap (puts last o field)

end Directive

/-! ## Digits -/

theorem digitChar_eq (upper : Bool) {x : BitVec 32} (hx : x.toNat < 16) :
    digitChar upper x = ch (if upper then (Nat.digitChar x.toNat).toUpper
      else Nat.digitChar x.toNat) := by
  have hall : ∀ upper : Bool, ∀ n < 16, digitChar upper (BitVec.ofNat 32 n) =
      ch (if upper then (Nat.digitChar n).toUpper else Nat.digitChar n) := by
    decide
  have h := hall upper x.toNat hx
  rwa [BitVec.ofNat_toNat, BitVec.setWidth_eq] at h

theorem putDigits_zero (flags : Flags) (room : Nat) (tmp : List Byte) :
    putDigits flags room 0 tmp = some tmp := by
  cases room <;> rfl

/-- A character that is no digit. -/
theorem notMem_numeralText {c : Byte} (hall : ∀ upper : Bool, ∀ k < 16,
    c ≠ ch (if upper then (Nat.digitChar k).toUpper else Nat.digitChar k)) {base : Nat}
    (hlo : 1 < base) (hhi : base ≤ 16) (upper : Bool) (n : Nat) :
    c ∉ numeralText base upper n := by
  induction n using Nat.strongRecOn with
  | ind n ih =>
    rw [numeralText]
    rcases Nat.lt_or_ge n base with hlt | hge
    · rw [Nat.toDigits_of_lt_base hlt]
      exact List.not_mem_cons_of_ne_of_not_mem (hall upper n (by omega)) List.not_mem_nil
    · rw [Nat.toDigits_of_base_le hlo hge, List.map_append, List.mem_append, not_or]
      have hmod := Nat.mod_lt n (Nat.zero_lt_of_lt hlo)
      exact ⟨ih _ (Nat.div_lt_self (by omega) hlo),
        List.not_mem_cons_of_ne_of_not_mem (hall upper _ (by omega)) List.not_mem_nil⟩

/-- The loop over the digits of `x` lists its numeral. -/
theorem putDigits_eq {flags : Flags} (hlo : 1 < flags.base.toNat) (hhi : flags.base.toNat ≤ 16) :
    ∀ (room : Nat) (x : BitVec 32) (tmp tmp' : List Byte), x ≠ 0 →
      putDigits flags room x tmp = some tmp' →
        tmp' = numeralText flags.base.toNat flags.upper x.toNat ++ tmp := by
  intro room
  induction room with
  | zero =>
    intro x tmp tmp' hx h
    rw [putDigits, if_neg hx] at h
    cases h
  | succ room ih =>
    intro x tmp tmp' hx h
    have hmod : (x % flags.base).toNat < 16 := by
      rw [BitVec.toNat_umod]
      exact Nat.lt_of_lt_of_le (Nat.mod_lt _ (by omega)) hhi
    rw [putDigits, if_neg hx, digitChar_eq _ hmod, BitVec.toNat_umod] at h
    rw [numeralText, Nat.toDigits_eq_if hlo]
    rcases Nat.lt_or_ge x.toNat flags.base.toNat with hlt | hge
    · have hdiv : x / flags.base = 0 := BitVec.eq_of_toNat_eq <| by
        rw [BitVec.toNat_udiv, Nat.div_eq_of_lt hlt]
        rfl
      rw [hdiv, putDigits_zero, Nat.mod_eq_of_lt hlt] at h
      rw [if_pos hlt]
      exact (Option.some.inj h).symm
    · have hdiv : x / flags.base ≠ 0 := by
        intro hzero
        have hpos := Nat.div_pos hge (by omega)
        rw [← BitVec.toNat_udiv, hzero] at hpos
        exact absurd hpos (Nat.lt_irrefl 0)
      have htmp := ih _ _ _ hdiv h
      rw [BitVec.toNat_udiv] at htmp
      rw [if_neg (Nat.not_lt.mpr hge), List.map_append, List.append_assoc]
      exact htmp

theorem numeral_eq {flags : Flags} (hlo : 8 ≤ flags.base.toNat) (hhi : flags.base.toNat ≤ 16)
    (x : BitVec 32) :
    numeral flags x = some (numeralText flags.base.toNat flags.upper x.toNat) := by
  obtain ⟨tmp, htmp⟩ := exists_numeral hlo x
  rw [htmp]
  rw [numeral] at htmp
  by_cases hx : x = 0
  · subst hx
    rw [if_pos rfl] at htmp
    obtain rfl := Option.some.inj htmp
    show _ = some (numeralText _ _ 0)
    rw [numeralText, Nat.toDigits_zero]
    cases flags.upper <;> rfl
  · rw [if_neg hx] at htmp
    rw [putDigits_eq (by omega) hhi 12 x [] tmp hx htmp, List.append_nil]

/-! ## The conversion of an integer -/

/-- The sign and the digits of a number, with spaces in front of the sign or zeros behind
it. -/
def paddedField (zero : Bool) (width : Nat) (sign digits : List Byte) : List Byte :=
  let pad := width - (sign ++ digits).length
  if zero then sign ++ List.replicate pad (ch '0') ++ digits
  else List.replicate pad (ch ' ') ++ sign ++ digits

theorem length_paddedField (zero : Bool) (width : Nat) (sign digits : List Byte) :
    (paddedField zero width sign digits).length = max width (sign ++ digits).length := by
  cases zero <;> simp only [paddedField, List.length_append, List.length_replicate, if_true,
    Bool.false_eq_true, if_false] <;> omega

/-- There is one field that denotes a number. -/
theorem Directive.denotes_iff {d : Directive} {z : Int} {field : List Byte} :
    d.Denotes z field ↔ field = paddedField d.zero d.width (sign z) (d.digits z) := by
  constructor
  · rintro ⟨⟨pad, hfield⟩, hlen⟩
    obtain ⟨n, hn⟩ : ∃ n, n = (sign z ++ d.digits z).length := ⟨_, rfl⟩
    have hpad : pad = d.width - n := by
      rw [hfield, ← hn] at hlen
      rw [List.length_append] at hn
      split at hlen <;> simp only [List.length_append, List.length_replicate] at hlen <;> omega
    rw [hfield, hpad, hn]
    rfl
  · rintro rfl
    exact ⟨⟨_, rfl⟩, length_paddedField _ _ _ _⟩

/-- The number that `putNumber` prints. -/
def Flags.value (flags : Flags) (x : BitVec 32) : Int :=
  if flags.sign then (truncate flags x).toInt else (truncate flags x).toNat

theorem Flags.value_of_not_minus {flags : Flags} {x : BitVec 32}
    (h : (flags.sign && (truncate flags x).msb) = false) :
    flags.value x = (truncate flags x).toNat := by
  rw [Flags.value]
  split
  · next hsign =>
    rw [hsign, Bool.true_and] at h
    exact BitVec.toInt_eq_toNat_of_msb h
  · rfl

/-- A number with the sign bit is negative, and `-x` is its absolute value, also if it is
the most negative one. -/
theorem Flags.value_of_minus {flags : Flags} {x : BitVec 32}
    (h : (flags.sign && (truncate flags x).msb) = true) :
    flags.value x < 0 ∧ (flags.value x).natAbs = (-truncate flags x).toNat := by
  obtain ⟨hsign, hmsb⟩ := Bool.and_eq_true_iff.mp h
  have hlt := (truncate flags x).isLt
  have hge := BitVec.toNat_ge_of_msb_true hmsb
  rw [Flags.value, if_pos hsign, BitVec.toInt_eq_msb_cond, if_pos hmsb, BitVec.toNat_neg]
  omega

/-- **The text of a number**, without the flag `#`. -/
theorem numberText_eq {flags : Flags} (halt : flags.alternate = false)
    (hlo : 8 ≤ flags.base.toNat) (hhi : flags.base.toNat ≤ 16) {width : Nat}
    (hwidth : width < 2 ^ 31) (x : BitVec 32) :
    numberText flags (BitVec.ofNat 32 width) x =
      paddedField flags.zeropad width (Directive.sign (flags.value x))
        (numeralText flags.base.toNat flags.upper (flags.value x).natAbs) := by
  have hnumeral : ∀ y, numeral flags y =
      some (numeralText flags.base.toNat flags.upper y.toNat) := numeral_eq hlo hhi
  have hwidth' : (BitVec.ofNat 32 width).toInt = width := by
    rw [BitVec.toInt_eq_toNat_of_lt] <;> rw [BitVec.toNat_ofNat] <;> omega
  cases hminus : flags.sign && (truncate flags x).msb
  · have hvalue := Flags.value_of_not_minus hminus
    have hsign : Directive.sign (flags.value x) = [] := if_neg (by omega)
    rw [hsign, hvalue, Int.natAbs_natCast]
    simp only [numberText, halt, hminus, hnumeral, hwidth', Bool.false_and, Bool.false_eq_true,
      if_false, Option.getD_some, paddedField, List.nil_append, List.append_nil, Int.toNat_sub]
    cases flags.zeropad <;> rfl
  · obtain ⟨hneg, habs⟩ := Flags.value_of_minus hminus
    have hsign : Directive.sign (flags.value x) = [ch '-'] := if_pos hneg
    have hwidth'' : (BitVec.ofNat 32 width - 1).toInt = width - 1 := by
      rw [BitVec.toInt_sub, hwidth']
      exact Int.bmod_eq_of_le (by simp; omega) (by simp; omega)
    have hpad : ∀ n : Nat, ((width : Int) - 1 - n).toNat = width - (1 + n) := by
      intro n
      omega
    rw [hsign, habs]
    simp only [numberText, halt, hminus, hnumeral, hwidth'', Bool.false_and, Bool.true_and,
      Bool.false_eq_true, if_false, if_true, Option.getD_some, paddedField, List.length_append,
      List.length_singleton, hpad]
    cases flags.zeropad <;> simp

/-! ## Reading a directive -/

/-- The flags behind a length modifier. -/
def Modifier.setFlags (m : Modifier) (flags : Flags) : Flags :=
  match m with
  | .word => flags
  | .h => { flags with short := true }
  | .hh => { flags with char := true }

/-- The flags behind a conversion. -/
def Conversion.setFlags (c : Conversion) (flags : Flags) : Flags :=
  { flags with
    base := BitVec.ofNat 32 c.base
    sign := c.signed || flags.sign
    upper := c.upper || flags.upper }

section Reading

variable {last : Nat} {format : List Byte} {flags : Flags} {width : BitVec 32} {ap : List Arg}
  {o : Cursor}

theorem more_zero : more last (ch '0' :: format) false flags width ap o =
    more last format false { flags with zeropad := true } width ap o := by
  rw [more.eq_def]
  exact if_neg Bool.false_ne_true

theorem more_star (digits : Bool) (x : BitVec 32) :
    more last (ch '*' :: format) digits flags width (.word x :: ap) o =
      more last format false flags x ap o := by
  rw [more.eq_def]
  exact if_neg (by cases digits <;> decide)

/-- The digits of a width, the first of which is not 0. -/
theorem more_digits {n : Nat} (hn : 0 < n) : ∀ format,
    more last (numeralText 10 false n ++ format) false flags width ap o =
      more last format true flags (BitVec.ofNat 32 n) ap o := by
  induction n using Nat.strongRecOn with
  | ind n ih =>
    intro format
    have hdigit : ∀ k < 10, isDigit (ch (Nat.digitChar k)) = true ∧
        digitValue (ch (Nat.digitChar k)) = BitVec.ofNat 32 k ∧
        (0 < k → ch (Nat.digitChar k) ≠ ch '0') := by
      decide
    rw [numeralText]
    rcases Nat.lt_or_ge n 10 with hlt | hge
    · obtain ⟨hisDigit, hvalue, hne⟩ := hdigit n hlt
      rw [Nat.toDigits_of_lt_base hlt]
      show more last (ch (Nat.digitChar n) :: format) false flags width ap o = _
      rw [more.eq_def]
      dsimp only
      rw [Bool.false_and, if_neg Bool.false_ne_true, if_neg (isDigit_ne hisDigit rfl),
        if_neg (isDigit_ne hisDigit rfl), if_neg (hne hn), if_pos hisDigit, hvalue]
    · obtain ⟨hisDigit, hvalue, -⟩ := hdigit (n % 10) (Nat.mod_lt _ (by decide))
      have hval : BitVec.ofNat 32 (n / 10) * 10 + BitVec.ofNat 32 (n % 10) =
          BitVec.ofNat 32 n := by
        conv => rhs; rw [← Nat.div_add_mod' n 10]
        rw [BitVec.ofNat_add, BitVec.ofNat_mul]
        rfl
      rw [Nat.toDigits_of_base_le (by decide) hge, List.map_append, List.append_assoc]
      refine (ih (n / 10) (by omega) (by omega) _).trans ?_
      show more last (ch (Nat.digitChar (n % 10)) :: format) true flags _ ap o = _
      rw [more.eq_def]
      dsimp only
      rw [hisDigit, Bool.true_and, if_pos rfl, hvalue, hval]

theorem more_h (digits : Bool) (c : Byte) :
    more last (ch 'h' :: c :: format) digits flags width ap o =
      if c = ch 'h' then more last format false { flags with char := true } width ap o
      else more last (c :: format) false { flags with short := true } width ap o := by
  rw [more.eq_def]
  exact if_neg (by cases digits <;> decide)

/-- A length modifier, in front of a character that is not `h`. -/
theorem more_length (m : Modifier) {c : Byte} (hc : c ≠ ch 'h') (digits : Bool) :
    ∃ digits', ∀ last format flags width ap o,
      more last (m.text ++ c :: format) digits flags width ap o =
        more last (c :: format) digits' (m.setFlags flags) width ap o := by
  cases m with
  | word => exact ⟨digits, fun _ _ _ _ _ _ => rfl⟩
  | h => exact ⟨false, fun _ _ _ _ _ _ => (more_h digits c).trans (if_neg hc)⟩
  | hh => exact ⟨false, fun _ _ _ _ _ _ => (more_h digits (ch 'h')).trans (if_pos rfl)⟩

/-- A conversion of an integer. -/
theorem more_conversion (c : Conversion) (digits : Bool) (x : BitVec 32) :
    more last (c.char :: format) digits flags width (.word x :: ap) o =
      (putNumber last (c.setFlags flags) width x o).bind (vsnprintfLoop last format ap) := by
  have hother : isDigit c.char = false ∧ c.char ≠ ch '*' ∧ c.char ≠ ch '#' ∧ c.char ≠ ch 'h' := by
    cases c <;> decide
  obtain ⟨hdigit, hstar, halt, hh⟩ := hother
  have hflags : numberFlags flags c.char = some (c.setFlags flags) := by
    cases c <;> rfl
  rw [more_last hdigit hstar halt hh, convert, hflags]
  dsimp only
  cases putNumber last (c.setFlags flags) width x o <;> rfl

end Reading

/-! ## Directives print numbers -/

namespace Directive

/-- The flags of a directive. -/
def flags (d : Directive) : Flags :=
  d.conversion.setFlags (d.modifier.setFlags { zeropad := d.zero })

/-- What a directive prints. -/
def field (d : Directive) (x : BitVec 32) : List Byte :=
  paddedField d.zero d.width (sign (d.flags.value x)) (d.digits (d.flags.value x))

theorem more_width (d : Directive) : ∃ digits, ∀ last format flags ap o,
    more last (d.widthText ++ format) false flags 0
        ((if d.star then [.word (BitVec.ofNat 32 d.width)] else []) ++ ap) o =
      more last format digits flags (BitVec.ofNat 32 d.width) ap o := by
  rw [widthText]
  split
  · exact ⟨false, fun _ _ _ _ _ => more_star false _⟩
  · split
    · next hzero =>
      rw [hzero]
      exact ⟨false, fun _ _ _ _ _ => rfl⟩
    · next hpos => exact ⟨true, fun _ _ _ _ _ => more_digits (Nat.pos_of_ne_zero hpos) _⟩

theorem putNumber_field (d : Directive) (x : BitVec 32) (last : Nat) (o : Cursor) :
    putNumber last d.flags (BitVec.ofNat 32 d.width) x o = some (puts last o (d.field x)) := by
  have halt : d.flags.alternate = false := by
    rw [flags]
    cases d.modifier <;> rfl
  have hzero : d.flags.zeropad = d.zero := by
    rw [flags]
    cases d.modifier <;> rfl
  have hupper : d.flags.upper = d.conversion.upper := by
    rw [flags]
    cases d.modifier <;> exact Bool.or_false _
  have hbase : d.flags.base.toNat = d.conversion.base := by
    rw [flags]
    cases d.conversion <;> rfl
  have hrange : 8 ≤ d.conversion.base ∧ d.conversion.base ≤ 16 := by
    cases d.conversion <;> decide
  rw [putNumber_eq (hbase ▸ hrange.1), numberText_eq halt (hbase ▸ hrange.1) (hbase ▸ hrange.2)
    d.width_lt, hzero, hbase, hupper]
  rfl

/-- **What a directive prints.** -/
theorem emits_field (d : Directive) (x : BitVec 32) : d.Emits x (d.field x) := by
  intro last format ap o
  have hchar : d.conversion.char ≠ ch 'h' := by
    cases d.conversion <;> decide
  have hzero : ∀ format ap,
      more last ((if d.zero then [ch '0'] else []) ++ format) false {} 0 ap o =
        more last format false { zeropad := d.zero } 0 ap o := by
    intro format ap
    cases d.zero
    · rfl
    · exact more_zero
  obtain ⟨digits, hwidth⟩ := d.more_width
  obtain ⟨digits', hlength⟩ := more_length d.modifier hchar digits
  calc vsnprintfLoop last (d.text ++ format) (d.args x ++ ap) o
      = more last ((if d.zero then [ch '0'] else []) ++ (d.widthText ++ (d.modifier.text ++
          d.conversion.char :: format))) false {} 0 (d.args x ++ ap) o := by
        rw [text, List.cons_append, vsnprintfLoop, if_pos rfl]
        simp only [List.append_assoc, List.singleton_append]
    _ = (putNumber last d.flags (BitVec.ofNat 32 d.width) x o).bind
          (vsnprintfLoop last format ap) := by
        rw [hzero, args, List.append_assoc, List.singleton_append, hwidth, hlength,
          more_conversion]
        rfl
    _ = vsnprintfLoop last format ap (puts last o (d.field x)) := by
        rw [putNumber_field]
        rfl

/-- The most negative number, with zeros behind its sign: `%013d`. -/
example : (⟨true, false, 13, .word, .d, by decide⟩ : Directive).field 0x80000000 =
    ['-', '0', '0', '2', '1', '4', '7', '4', '8', '3', '6', '4', '8'].map ch := by
  decide

/-- A field is far shorter than the address space. -/
theorem length_field_lt (d : Directive) (x : BitVec 32) : (d.field x).length < 2 ^ 32 := by
  obtain ⟨z, hz⟩ : ∃ z, z = d.flags.value x := ⟨_, rfl⟩
  have hbound : z.natAbs < 2 ^ 32 := by
    have hx := (truncate d.flags x).isLt
    have hint := (truncate d.flags x).two_mul_toInt_lt
    have hint' := (truncate d.flags x).le_two_mul_toInt
    rw [hz, Flags.value]
    split <;> omega
  have hbase : 2 ≤ d.conversion.base := by
    cases d.conversion <;> decide
  have hdigits : (d.digits z).length ≤ 32 := by
    rw [digits, numeralText, List.length_map]
    refine (Nat.length_toDigits_le_iff hbase (by decide)).mpr ?_
    exact Nat.lt_of_lt_of_le hbound (Nat.pow_le_pow_left hbase 32)
  have hsign : (sign z).length ≤ 1 := by
    unfold sign
    split <;> decide
  have hwidth := d.width_lt
  rw [field, ← hz, length_paddedField, List.length_append]
  omega

/-- What a directive prints is shown by a buffer that has room for all of it. -/
theorem Emits.unique {d : Directive} {x : BitVec 32} {l l' : List Byte} (h : d.Emits x l)
    (h' : d.Emits x l') (hlen : l'.length < 2 ^ 32) : l = l' := by
  obtain ⟨o, ho⟩ : ∃ o : Cursor, o.p = 0 := ⟨⟨fun _ => 0, 0⟩, rfl⟩
  have hputs : puts (2 ^ 32) o l = puts (2 ^ 32) o l' :=
    Option.some.inj ((h _ [] [] o).symm.trans (h' _ [] [] o))
  have hlength : l.length = l'.length := by
    have hp := congrArg Cursor.p hputs
    rw [puts_p, puts_p] at hp
    omega
  refine List.ext_getElem hlength fun i hi hi' => ?_
  have hmem := congrArg (fun o => Cursor.mem o i) hputs
  rw [puts_mem_of_lt (Nat.le_refl _) (by omega), puts_mem_of_lt (Nat.le_refl _) (by omega), ho,
    if_pos (by omega), if_pos (by omega), Nat.sub_zero] at hmem
  rwa [List.getElem_eq_getD (o.mem i), List.getElem_eq_getD (o.mem i)]

theorem flags_sign (d : Directive) : d.flags.sign = d.conversion.signed := by
  rw [flags]
  cases d.modifier <;> exact Bool.or_false _

/-- `h` extends the sign, or zeros. -/
theorem value_eq {d : Directive} (hmodifier : d.modifier ≠ .hh) (x : BitVec 32) :
    d.flags.value x = d.value x := by
  rw [Flags.value, value, truncate, flags_sign]
  cases hm : d.modifier with
  | word =>
    have hchar : d.flags.char = false := by rw [flags, hm]; rfl
    have hshort : d.flags.short = false := by rw [flags, hm]; rfl
    simp only [hchar, hshort, Bool.false_eq_true, if_false, Modifier.bits, BitVec.setWidth_eq]
  | h =>
    have hchar : d.flags.char = false := by rw [flags, hm]; rfl
    have hshort : d.flags.short = true := by rw [flags, hm]; rfl
    simp only [hchar, hshort, Bool.false_eq_true, if_false, if_true, Modifier.bits]
    cases d.conversion.signed
    · exact congrArg Nat.cast (BitVec.toNat_setWidth_of_le (by decide))
    · exact BitVec.toInt_signExtend_of_le (by decide)
  | hh => exact absurd hm hmodifier

/-- `hh` always extends zeros. -/
theorem value_hh {d : Directive} (hmodifier : d.modifier = .hh) (x : BitVec 32) :
    d.flags.value x = (x.setWidth 8).toNat := by
  have hchar : d.flags.char = true := by rw [flags, hmodifier]; rfl
  have hmsb : ((x.setWidth 8).setWidth 32).msb = false := by
    rw [BitVec.msb_setWidth, BitVec.getLsbD_of_ge _ _ (by decide), Bool.and_false]
  rw [Flags.value, truncate, if_pos hchar, BitVec.toInt_eq_toNat_of_msb hmsb, ite_self]
  exact congrArg Nat.cast (BitVec.toNat_setWidth_of_le (by decide))

/-- What is printed of a number that is not negative has no `-`. -/
theorem minus_notMem_field {d : Directive} {x : BitVec 32} (h : 0 ≤ d.flags.value x) :
    ch '-' ∉ d.field x := by
  have hrange : 1 < d.conversion.base ∧ d.conversion.base ≤ 16 := by
    cases d.conversion <;> decide
  have hdigits := notMem_numeralText (c := ch '-') (by decide) hrange.1 hrange.2
    d.conversion.upper (d.flags.value x).natAbs
  have hpad : ∀ n c, ch '-' ≠ c → ch '-' ∉ List.replicate n c :=
    fun _ _ hne hmem => hne (List.eq_of_mem_replicate hmem)
  rw [field, sign, if_neg (Int.not_lt.mpr h), paddedField]
  split
  · rw [List.nil_append, List.mem_append, not_or]
    exact ⟨hpad _ _ (by decide), hdigits⟩
  · rw [List.append_nil, List.mem_append, not_or]
    exact ⟨hpad _ _ (by decide), hdigits⟩

theorem minus_mem_of_denotes {d : Directive} {z : Int} {l : List Byte} (h : d.Denotes z l)
    (hz : z < 0) : ch '-' ∈ l := by
  obtain ⟨pad, hl⟩ := h.padded
  rw [hl, sign, if_pos hz]
  split <;> simp

/-- **A directive prints its argument**, unless it is `%hhd` or `%hhi` and bit 7 of the
argument is set: then the number is negative, and what is printed is not. -/
theorem prints_value_iff (d : Directive) (x : BitVec 32) :
    (∃ field, d.Emits x field ∧ d.Denotes (d.value x) field) ↔
      ¬ (d.modifier = .hh ∧ d.conversion.signed = true ∧ x.getLsbD 7 = true) := by
  have hmsb : (x.setWidth 8).msb = x.getLsbD 7 := BitVec.msb_setWidth x
  constructor
  · rintro ⟨l, hemits, hdenotes⟩ ⟨hmodifier, hsigned, hbit⟩
    have hneg : d.value x < 0 := by
      rw [value, hmodifier, hsigned, if_pos rfl]
      exact BitVec.toInt_neg_of_msb_true (hmsb.trans hbit)
    have hpos : 0 ≤ d.flags.value x := by
      rw [value_hh hmodifier]
      exact Int.natCast_nonneg _
    rw [hemits.unique (d.emits_field x) (d.length_field_lt x)] at hdenotes
    exact minus_notMem_field hpos (minus_mem_of_denotes hdenotes hneg)
  · intro h
    have hvalue : d.flags.value x = d.value x := by
      by_cases hmodifier : d.modifier = .hh
      · rw [value_hh hmodifier, value, hmodifier]
        cases hsigned : d.conversion.signed
        · rfl
        · have hbit : x.getLsbD 7 = false :=
            (Bool.not_eq_true _).mp fun hbit => h ⟨hmodifier, hsigned, hbit⟩
          exact (BitVec.toInt_eq_toNat_of_msb (hmsb.trans hbit)).symm
      · exact value_eq hmodifier x
    refine ⟨d.field x, d.emits_field x, denotes_iff.mpr ?_⟩
    rw [field, hvalue]

/-- `%hhd`. -/
def hhd : Directive := ⟨false, false, 0, .hh, .d, by decide⟩

/-- `%hhd` prints the argument 200, which is -56 as a signed byte, as `200`. -/
theorem prints_value_hhd : hhd.text = ['%', 'h', 'h', 'd'].map ch ∧ hhd.value 200 = -56 ∧
    hhd.Emits 200 (['2', '0', '0'].map ch) ∧
      ¬ ∃ field, hhd.Emits 200 field ∧ hhd.Denotes (hhd.value 200) field := by
  have hfield : hhd.field 200 = ['2', '0', '0'].map ch := by
    decide
  have hemits := hhd.emits_field 200
  rw [hfield] at hemits
  refine ⟨rfl, by decide, hemits, ?_⟩
  rintro ⟨l, hl, hdenotes⟩
  rw [hl.unique hemits (by decide), denotes_iff] at hdenotes
  exact absurd hdenotes (by decide)

end Directive

end FlashFloppyTestbed
