/-
  Snprintf.lean --- `src/string.c`: formatted output into a buffer.

  `vsnprintf` hands each character to `do_putch`, which stores it below `end` and moves
  the cursor `p` on in any case.  The interpreter follows the format string character by
  character: `vsnprintfLoop` outside a conversion, `more` behind a `%`.

  Pointers have 32 bits: `end = p + size - 1` wraps, below address 0 as well as above the
  last one, and so does the cursor.  `FillsBuffer` is what a call is to do, and
  `vsnprintf_fills` for which buffers it does so; the three lemmas behind it are about the
  others.  `width` wraps at 32 bits.  The strings that are read lie outside the buffer, and
  are the lists of their characters.  `none` is a call that C does not define: the format
  string ends inside a conversion, an argument is missing or is of the wrong kind, or an
  index is outside `tmp`.
-/
import FlashFloppyTestbed.Memory
import Mathlib.Algebra.Group.Nat.Defs

set_option autoImplicit false

namespace FlashFloppyTestbed

/-- A character constant. -/
def ch (c : Char) : Byte := BitVec.ofNat 8 c.toNat

/-- A string without its terminator. -/
def CString : Type := {l : List Byte // 0 ∉ l}

/-- What `va_arg` yields. -/
inductive Arg where
  | word (x : BitVec 32)
  | str (s : CString)

/-- The memory, and how far the cursor has come. -/
structure Cursor where
  mem : Mem
  p : Nat

/-- The pointer `p`. -/
def Cursor.addr (o : Cursor) : Nat := o.p % 2 ^ 32

/-- `do_putch(&p, end, c)`. -/
def doPutch (last : Nat) (o : Cursor) (c : Byte) : Cursor :=
  ⟨if o.addr < last then o.mem.st8 o.addr c else o.mem, o.p + 1⟩

/-- A loop that passes some characters to `do_putch`. -/
def puts (last : Nat) (o : Cursor) (l : List Byte) : Cursor := l.foldl (doPutch last) o

/-- `flags`; its lowest five bits are `base`. -/
structure Flags where
  base : BitVec 32 := 0
  upper : Bool := false
  sign : Bool := false
  alternate : Bool := false
  zeropad : Bool := false
  char : Bool := false
  short : Bool := false

/-- `(flags & UPPER ? "0123456789ABCDEF" : "0123456789abcdef")[x]`. -/
def digitChar (upper : Bool) (x : BitVec 32) : Byte :=
  let lower := ['0', '1', '2', '3', '4', '5', '6', '7', '8', '9', 'a', 'b', 'c', 'd', 'e', 'f']
  ch ((if upper then lower.map Char.toUpper else lower).getD x.toNat '?')

/-- `for (q = tmp; x; q++, x /= base) *q = ...`, with room for `room` more characters
behind `q`.  What is in `tmp` below `q` is listed from `q` down. -/
def putDigits (flags : Flags) : Nat → BitVec 32 → List Byte → Option (List Byte)
  | 0, x, tmp => if x = 0 then some tmp else none
  | room + 1, x, tmp =>
      if x = 0 then some tmp
      else putDigits flags room (x / flags.base) (digitChar flags.upper (x % flags.base) :: tmp)

/-- What is in `tmp` when the digits of `x` are there. -/
def numeral (flags : Flags) (x : BitVec 32) : Option (List Byte) :=
  if x = 0 then some [ch '0'] else putDigits flags 12 x []

/-- The integer that is printed; `char` is unsigned. -/
def truncate (flags : Flags) (x : BitVec 32) : BitVec 32 :=
  if flags.char then (x.setWidth 8).setWidth 32
  else if flags.short then
    if flags.sign then (x.setWidth 16).signExtend 32 else (x.setWidth 16).setWidth 32
  else x

/-- The conversion of an integer, behind `x = va_arg(ap, unsigned int)`. -/
def putNumber (last : Nat) (flags : Flags) (width x : BitVec 32) (o : Cursor) : Option Cursor :=
  let x := truncate flags x
  let minus := flags.sign && x.msb
  let o := if minus && flags.zeropad then doPutch last o (ch '-') else o
  let sign := minus && !flags.zeropad
  let width := if minus then width - 1 else width
  let x := if minus then -x else x
  let zero := flags.alternate && (flags.base == 8 || flags.base == 16)
  let o := if zero then doPutch last o (ch '0') else o
  let width := if zero then width - 1 else width
  let hex := flags.alternate && flags.base == 16
  let o := if hex then doPutch last o (ch 'x') else o
  let width := if hex then width - 1 else width
  (numeral flags x).map fun tmp =>
    let pad := if flags.zeropad then ch '0' else ch ' '
    let o := puts last o (List.replicate (width.toInt - tmp.length).toNat pad)
    let o := if sign then doPutch last o (ch '-') else o
    puts last o tmp

/-- `case 's'`. -/
def putString (last : Nat) (width : BitVec 32) (s : CString) (o : Cursor) : Cursor :=
  let o := puts last o s.val
  let width := width - BitVec.ofNat 32 s.val.length
  puts last o (List.replicate width.toInt.toNat (ch ' '))

/-- The `flags` of the conversion of an integer. -/
def numberFlags (flags : Flags) (c : Byte) : Option Flags :=
  if c = ch 'o' then some { flags with base := 8 }
  else if c = ch 'd' ∨ c = ch 'i' then some { flags with sign := true, base := 10 }
  else if c = ch 'u' then some { flags with base := 10 }
  else if c = ch 'X' then some { flags with upper := true, base := 16 }
  else if c = ch 'x' ∨ c = ch 'p' then some { flags with base := 16 }
  else none

/-- The cases of the switch that do not go to `more`, up to the next character. -/
def convert (last : Nat) (flags : Flags) (width : BitVec 32) (c : Byte) (ap : List Arg)
    (o : Cursor) : Option (List Arg × Cursor) :=
  match numberFlags flags c with
  | some flags =>
      match ap with
      | .word x :: ap => (putNumber last flags width x o).map fun o => (ap, o)
      | _ => none
  | none =>
      if c = ch 's' then
        match ap with
        | .str s :: ap => some (ap, putString last width s o)
        | _ => none
      else if c = ch 'c' then
        match ap with
        | .word x :: ap => some (ap, doPutch last o (x.setWidth 8))
        | _ => none
      else some (ap, doPutch last o c)

/-- `c >= '0' && c <= '9'`. -/
def isDigit (c : Byte) : Bool := decide (ch '0' ≤ c) && decide (c ≤ ch '9')

/-- The value of a digit. -/
def digitValue (c : Byte) : BitVec 32 := c.setWidth 32 - (ch '0').setWidth 32

mutual

/-- `while ((c = *format++) != '\0')`. -/
def vsnprintfLoop (last : Nat) : List Byte → List Arg → Cursor → Option Cursor
  | [], _, o => some o
  | c :: format, ap, o =>
      if c = ch '%' then more last format false {} 0 ap o
      else vsnprintfLoop last format ap (doPutch last o c)

/-- `more:`; `digits` says that the loop over the digits of a width is running. -/
def more (last : Nat) : List Byte → Bool → Flags → BitVec 32 → List Arg → Cursor → Option Cursor
  | [], _, _, _, _, _ => none
  | c :: format, digits, flags, width, ap, o =>
      if digits && isDigit c then
        more last format true flags (width * 10 + digitValue c) ap o
      else if c = ch '*' then
        match ap with
        | .word x :: ap => more last format false flags x ap o
        | _ => none
      else if c = ch '#' then more last format false { flags with alternate := true } width ap o
      else if c = ch '0' then more last format false { flags with zeropad := true } width ap o
      else if isDigit c then more last format true flags (digitValue c) ap o
      else if c = ch 'h' then
        match format with
        | [] => none
        | c' :: format =>
            if c' = ch 'h' then more last format false { flags with char := true } width ap o
            else more last (c' :: format) false { flags with short := true } width ap o
      else
        match convert last flags width c ap o with
        | some (ap, o) => vsnprintfLoop last format ap o
        | none => none

end

/-- The address of an array of `n` bytes. -/
def Buffer (n : Nat) : Type := {a : Nat // a + n ≤ 2 ^ 32}

/-- What `vsnprintf` leaves in memory, and what it returns. -/
structure Printed where
  mem : Mem
  ret : BitVec 32

/-- `end = p + size - 1`, behind `p = str`. -/
def endOf (str size : Nat) : Nat := (str + size + (2 ^ 32 - 1)) % 2 ^ 32

/-- The terminator: at `p`, or at `end` when `p` is behind it. -/
def putNul (str last : Nat) (o : Cursor) : Mem :=
  if o.addr ≤ last then o.mem.st8 o.addr 0
  else if str ≤ last then o.mem.st8 last 0
  else o.mem

/-- `vsnprintf(str, size, format, ap)`; `str` and `size` are below `2 ^ 32`. -/
def vsnprintf (m : Mem) (str size : Nat) (format : CString) (ap : List Arg) : Option Printed :=
  (vsnprintfLoop (endOf str size) format.val ap ⟨m, str⟩).map fun o =>
    ⟨putNul str (endOf str size) o, BitVec.ofNat 32 (o.p - str)⟩

/-! ## Format strings -/

/-- A format string whose conversions are supported and complete, with arguments that
match them; `inside` says that it begins behind a `%`. -/
inductive WellFormed : (inside : Bool) → List Byte → List Arg → Prop where
  | nil (ap : List Arg) : WellFormed false [] ap
  | char {c : Byte} {format : List Byte} {ap : List Arg} (hc : c ≠ ch '%')
      (h : WellFormed false format ap) : WellFormed false (c :: format) ap
  | conversion {format : List Byte} {ap : List Arg} (h : WellFormed true format ap) :
      WellFormed false (ch '%' :: format) ap
  | modifier {c : Byte} {format : List Byte} {ap : List Arg}
      (hc : c = ch '#' ∨ c = ch 'h' ∨ isDigit c = true) (h : WellFormed true format ap) :
      WellFormed true (c :: format) ap
  | star {format : List Byte} {ap : List Arg} (x : BitVec 32) (h : WellFormed true format ap) :
      WellFormed true (ch '*' :: format) (.word x :: ap)
  | word {c : Byte} {format : List Byte} {ap : List Arg} (x : BitVec 32)
      (hc : c ∈ ['d', 'i', 'u', 'o', 'x', 'X', 'p', 'c'].map ch)
      (h : WellFormed false format ap) : WellFormed true (c :: format) (.word x :: ap)
  | str {format : List Byte} {ap : List Arg} (s : CString) (h : WellFormed false format ap) :
      WellFormed true (ch 's' :: format) (.str s :: ap)
  | percent {format : List Byte} {ap : List Arg} (h : WellFormed false format ap) :
      WellFormed true (ch '%' :: format) ap

/-! ## Printing -/

theorem puts_append (last : Nat) (o : Cursor) (l l' : List Byte) :
    puts last (puts last o l) l' = puts last o (l ++ l') :=
  List.foldl_append.symm

theorem ite_doPutch (last : Nat) (o : Cursor) (c : Byte) (b : Bool) :
    (if b = true then doPutch last o c else o) = puts last o (if b = true then [c] else []) := by
  cases b <;> rfl

theorem puts_p (last : Nat) (l : List Byte) : ∀ o, (puts last o l).p = o.p + l.length := by
  induction l with
  | nil => exact fun _ => rfl
  | cons c l ih =>
    intro o
    rw [List.length_cons, Nat.add_comm l.length, ← Nat.add_assoc]
    exact ih (doPutch last o c)

theorem doPutch_mem_of_ne (last : Nat) (o : Cursor) (c : Byte) {a : Nat} (ha : a ≠ o.addr) :
    (doPutch last o c).mem a = o.mem a := by
  rw [doPutch]
  split
  · exact Mem.st8_of_ne _ _ ha
  · rfl

theorem doPutch_mem_self (last : Nat) (o : Cursor) (c : Byte) :
    (doPutch last o c).mem o.addr = if o.addr < last then c else o.mem o.addr := by
  rw [doPutch]
  split
  · exact Mem.st8_self _ _ _
  · rfl

/-- How far the address `a` is ahead of the cursor. -/
def Cursor.ahead (o : Cursor) (a : Nat) : Nat := (a + (2 ^ 32 - o.addr)) % 2 ^ 32

theorem Cursor.addr_lt (o : Cursor) : o.addr < 2 ^ 32 := Nat.mod_lt _ (by decide)

theorem doPutch_ahead_self (last : Nat) (o : Cursor) (c : Byte) :
    (doPutch last o c).ahead o.addr = 2 ^ 32 - 1 := by
  have haddr := o.addr_lt
  have hnext : (doPutch last o c).addr = (o.p + 1) % 2 ^ 32 := rfl
  rw [Cursor.ahead, hnext]
  unfold Cursor.addr at haddr ⊢
  omega

theorem ahead_doPutch {last : Nat} {o : Cursor} {a : Nat} (c : Byte) (hlt : a < 2 ^ 32)
    (ha : a ≠ o.addr) : o.ahead a = (doPutch last o c).ahead a + 1 := by
  have hnext : (doPutch last o c).addr = (o.p + 1) % 2 ^ 32 := rfl
  rw [Cursor.ahead, Cursor.ahead, hnext]
  unfold Cursor.addr at ha ⊢
  omega

/-- Characters are stored one behind the other, round the address space, below `end`. -/
theorem puts_mem {last : Nat} (hlast : last ≤ 2 ^ 32) (l : List Byte) :
    ∀ (o : Cursor) (a : Nat), l.length ≤ 2 ^ 32 → (puts last o l).mem a =
      if a < last then l.getD (o.ahead a) (o.mem a) else o.mem a := by
  induction l with
  | nil =>
    intro o a _
    split <;> rfl
  | cons c l ih =>
    intro o a hlen
    rw [List.length_cons] at hlen
    refine (ih (doPutch last o c) a (by omega)).trans ?_
    by_cases hlt : a < last
    · rw [if_pos hlt, if_pos hlt]
      by_cases ha : a = o.addr
      · subst ha
        have hzero : o.ahead o.addr = 0 := by
          have haddr := o.addr_lt
          rw [Cursor.ahead, Nat.add_sub_cancel' (Nat.le_of_lt haddr), Nat.mod_self]
        rw [doPutch_ahead_self, List.getD_eq_default _ _ (by omega), doPutch_mem_self, if_pos hlt,
          hzero]
        rfl
      · rw [doPutch_mem_of_ne _ _ _ ha, ahead_doPutch c (by omega) ha, List.getD_cons_succ]
    · rw [if_neg hlt, if_neg hlt, doPutch]
      split
      · exact Mem.st8_of_ne _ _ (by omega)
      · rfl

theorem ahead_of_le {o : Cursor} {a : Nat} (hp : o.p < 2 ^ 32) (hlo : o.p ≤ a) (hhi : a < 2 ^ 32) :
    o.ahead a = a - o.p := by
  unfold Cursor.ahead Cursor.addr
  omega

/-- Characters that end inside the address space. -/
theorem puts_mem_of_lt {last : Nat} (hlast : last ≤ 2 ^ 32) {l : List Byte} {o : Cursor}
    (h : o.p + l.length < 2 ^ 32) (a : Nat) : (puts last o l).mem a =
      if o.p ≤ a ∧ a < last then l.getD (a - o.p) (o.mem a) else o.mem a := by
  rw [puts_mem hlast l o a (by omega)]
  by_cases hlt : a < last
  · rw [if_pos hlt]
    by_cases hlo : o.p ≤ a
    · rw [if_pos ⟨hlo, hlt⟩, ahead_of_le (by omega) hlo (by omega)]
    · rw [if_neg fun hin => hlo hin.1, List.getD_eq_default]
      unfold Cursor.ahead Cursor.addr
      omega
  · rw [if_neg hlt, if_neg fun hin => hlt hin.2]

/-- What prints `l`, wherever the cursor is and however much room there is. -/
def Prints (f : Nat → Cursor → Option Cursor) (l : List Byte) : Prop :=
  ∀ last o, f last o = some (puts last o l)

/-- The digits of an integer fit in `tmp`. -/
theorem exists_putDigits {flags : Flags} (hbase : 8 ≤ flags.base.toNat) :
    ∀ (room : Nat) (x : BitVec 32) (tmp : List Byte), x.toNat < 8 ^ room →
      ∃ tmp', putDigits flags room x tmp = some tmp' := by
  intro room
  induction room with
  | zero =>
    intro x tmp hx
    have hzero : x = 0 := BitVec.eq_of_toNat_eq (by simpa using hx)
    exact ⟨tmp, if_pos hzero⟩
  | succ room ih =>
    intro x tmp hx
    rw [putDigits]
    split
    · exact ⟨tmp, rfl⟩
    · refine ih _ _ ?_
      rw [BitVec.toNat_udiv]
      refine Nat.lt_of_le_of_lt (Nat.div_le_div_left hbase (by decide)) ?_
      rw [Nat.pow_succ] at hx
      exact Nat.div_lt_of_lt_mul (by omega)

theorem exists_numeral {flags : Flags} (hbase : 8 ≤ flags.base.toNat) (x : BitVec 32) :
    ∃ tmp, numeral flags x = some tmp := by
  rw [numeral]
  split
  · exact ⟨_, rfl⟩
  · exact exists_putDigits hbase 12 x [] (Nat.lt_of_lt_of_le x.isLt (by decide))

/-- What `putNumber` hands to `do_putch`. -/
def numberText (flags : Flags) (width x : BitVec 32) : List Byte :=
  let x := truncate flags x
  let minus := flags.sign && x.msb
  let width := if minus then width - 1 else width
  let zero := flags.alternate && (flags.base == 8 || flags.base == 16)
  let width := if zero then width - 1 else width
  let hex := flags.alternate && flags.base == 16
  let width := if hex then width - 1 else width
  let tmp := (numeral flags (if minus then -x else x)).getD []
  let pad := if flags.zeropad then ch '0' else ch ' '
  (if minus && flags.zeropad then [ch '-'] else []) ++ (if zero then [ch '0'] else []) ++
    (if hex then [ch 'x'] else []) ++ List.replicate (width.toInt - tmp.length).toNat pad ++
    (if minus && !flags.zeropad then [ch '-'] else []) ++ tmp

/-- What `putString` hands to `do_putch`. -/
def stringText (width : BitVec 32) (s : CString) : List Byte :=
  s.val ++ List.replicate (width - BitVec.ofNat 32 s.val.length).toInt.toNat (ch ' ')

theorem putNumber_eq {flags : Flags} (hbase : 8 ≤ flags.base.toNat) (width x : BitVec 32)
    (last : Nat) (o : Cursor) :
    putNumber last flags width x o = some (puts last o (numberText flags width x)) := by
  obtain ⟨y, hy⟩ : ∃ y, y = truncate flags x := ⟨_, rfl⟩
  obtain ⟨tmp, htmp⟩ := exists_numeral hbase (if (flags.sign && y.msb) = true then -y else y)
  simp only [putNumber, numberText, ← hy, htmp, Option.map_some, Option.getD_some, ite_doPutch,
    puts_append]

theorem putString_eq (width : BitVec 32) (s : CString) (last : Nat) (o : Cursor) :
    putString last width s o = puts last o (stringText width s) :=
  puts_append last o _ _

theorem numberFlags_base {flags flags' : Flags} {c : Byte} (h : numberFlags flags c = some flags') :
    8 ≤ flags'.base.toNat := by
  rw [numberFlags] at h
  split_ifs at h <;> cases h <;> simp

/-- The conversions that take an integer, or a character. -/
theorem convert_word {c : Byte} (hc : c ∈ ['d', 'i', 'u', 'o', 'x', 'X', 'p', 'c'].map ch)
    (flags : Flags) (width x : BitVec 32) (ap : List Arg) :
    ∃ l, ∀ last o,
      convert last flags width c (.word x :: ap) o = some (ap, puts last o l) := by
  cases hflags : numberFlags flags c with
  | some flags' =>
    refine ⟨numberText flags' width x, fun last o => ?_⟩
    rw [convert, hflags]
    exact congrArg (Option.map _) (putNumber_eq (numberFlags_base hflags) width x last o)
  | none =>
    have hlast : c = ch 'c' := by
      simp only [List.map_cons, List.map_nil, List.mem_cons, List.not_mem_nil, or_false] at hc
      rcases hc with rfl | rfl | rfl | rfl | rfl | rfl | rfl | hc
      all_goals first
        | exact hc
        | exact absurd hflags (Option.some_ne_none _)
    subst hlast
    exact ⟨[x.setWidth 8], fun last o => rfl⟩

/-! ## The interpreter -/

section Interpreter

variable {c : Byte} {format : List Byte} {ap : List Arg}

/-- Behind `%`, with these arguments left, the rest of the format string prints something
that does not depend on the buffer. -/
def MorePrints (format : List Byte) (ap : List Arg) : Prop :=
  ∀ digits flags width, ∃ l, Prints (fun last o => more last format digits flags width ap o) l

/-- A character that ends a conversion. -/
theorem more_last {last : Nat} {digits : Bool} {flags : Flags} {width : BitVec 32} {o : Cursor}
    (hdigit : isDigit c = false) (hstar : c ≠ ch '*') (halt : c ≠ ch '#') (hh : c ≠ ch 'h') :
    more last (c :: format) digits flags width ap o =
      (convert last flags width c ap o).bind fun r => vsnprintfLoop last format r.1 r.2 := by
  have hzero : c ≠ ch '0' := fun hc => by
    rw [hc] at hdigit
    cases hdigit
  rw [more.eq_def]
  dsimp only
  rw [hdigit, Bool.and_false, if_neg Bool.false_ne_true, if_neg hstar, if_neg halt,
    if_neg hzero, if_neg Bool.false_ne_true, if_neg hh]
  cases convert last flags width c ap o <;> rfl

/-- A character that does not change the state is passed to `do_putch` at the end. -/
theorem more_convert {l : List Byte} {digits : Bool} {flags : Flags} {width : BitVec 32}
    {ap' : List Arg} (hdigit : isDigit c = false) (hstar : c ≠ ch '*') (halt : c ≠ ch '#')
    (hh : c ≠ ch 'h')
    (hconv : ∃ l, ∀ last o, convert last flags width c ap o = some (ap', puts last o l))
    (hrest : Prints (fun last o => vsnprintfLoop last format ap' o) l) :
    ∃ l, Prints (fun last o => more last (c :: format) digits flags width ap o) l := by
  obtain ⟨l', hl'⟩ := hconv
  refine ⟨l' ++ l, fun last o => ?_⟩
  show more last (c :: format) digits flags width ap o = _
  rw [more_last hdigit hstar halt hh, hl']
  exact (hrest last _).trans (congrArg some (puts_append last o l' l))

/-- A character after which `more` goes on. -/
theorem MorePrints.step {format' : List Byte} {ap' : List Arg} {digits : Bool} {flags : Flags}
    {width : BitVec 32} (h : MorePrints format' ap') (digits' : Bool) (flags' : Flags)
    (width' : BitVec 32) (heq : ∀ last o, more last format digits flags width ap o =
      more last format' digits' flags' width' ap' o) :
    ∃ l, Prints (fun last o => more last format digits flags width ap o) l := by
  obtain ⟨l, hl⟩ := h digits' flags' width'
  exact ⟨l, fun last o => (heq last o).trans (hl last o)⟩

theorem isDigit_ne {c' : Byte} (hc : isDigit c = true) (hc' : isDigit c' = false) : c ≠ c' := by
  rintro rfl
  rw [hc] at hc'
  cases hc'

/-- A flag, or a digit of a width. -/
theorem more_modifier (hc : c = ch '#' ∨ c = ch 'h' ∨ isDigit c = true)
    (hmore : MorePrints format ap)
    (hhalf : ∀ format', format = ch 'h' :: format' → MorePrints format' ap) :
    MorePrints (c :: format) ap := by
  intro digits flags width
  by_cases hrun : (digits && isDigit c) = true
  · refine hmore.step true flags (width * 10 + digitValue c) fun last o => ?_
    rw [more.eq_def]
    exact if_pos hrun
  rcases hc with rfl | rfl | hdigit
  · refine hmore.step false { flags with alternate := true } width fun last o => ?_
    rw [more.eq_def]
    exact if_neg hrun
  · cases format with
    | nil =>
      obtain ⟨l, hl⟩ := hmore false flags width
      cases hl 0 ⟨fun _ => 0, 0⟩
    | cons c' format =>
      by_cases hh : c' = ch 'h'
      · refine (hhalf format (by rw [hh])).step false { flags with char := true } width
          fun last o => ?_
        rw [more.eq_def]
        exact (if_neg hrun).trans (if_pos hh)
      · refine hmore.step false { flags with short := true } width fun last o => ?_
        rw [more.eq_def]
        exact (if_neg hrun).trans (if_neg hh)
  · have hstar : c ≠ ch '*' := isDigit_ne hdigit rfl
    have halt : c ≠ ch '#' := isDigit_ne hdigit rfl
    by_cases hzero : c = ch '0'
    · refine hmore.step false { flags with zeropad := true } width fun last o => ?_
      rw [more.eq_def]
      exact (if_neg hrun).trans ((if_neg hstar).trans ((if_neg halt).trans (if_pos hzero)))
    · refine hmore.step true flags (digitValue c) fun last o => ?_
      rw [more.eq_def]
      exact (if_neg hrun).trans ((if_neg hstar).trans ((if_neg halt).trans
        ((if_neg hzero).trans (if_pos hdigit))))

/-- A format string prints something that does not depend on the buffer; behind a `%`,
also when its first character is the second one of `hh`. -/
def FormatPrints : (inside : Bool) → List Byte → List Arg → Prop
  | false, format, ap => ∃ l, Prints (fun last o => vsnprintfLoop last format ap o) l
  | true, format, ap => MorePrints format ap ∧
      ∀ format', format = ch 'h' :: format' → MorePrints format' ap

/-- **The interpreter** on a well-formed call. -/
theorem WellFormed.prints {inside : Bool} (h : WellFormed inside format ap) :
    FormatPrints inside format ap := by
  induction h with
  | nil ap => exact ⟨[], fun _ _ => rfl⟩
  | @char c format ap hc h ih =>
    obtain ⟨l, hl⟩ := ih
    refine ⟨c :: l, fun last o => ?_⟩
    show vsnprintfLoop last (c :: format) ap o = _
    rw [vsnprintfLoop, if_neg hc]
    exact hl last (doPutch last o c)
  | conversion h ih =>
    obtain ⟨l, hl⟩ := ih.1 false {} 0
    exact ⟨l, fun last o => hl last o⟩
  | modifier hc h ih =>
    exact ⟨more_modifier hc ih.1 ih.2, fun format' heq => (List.cons.inj heq).2 ▸ ih.1⟩
  | star x h ih =>
    refine ⟨fun digits flags width => ?_, fun format' heq => ?_⟩
    · refine ih.1.step false flags x fun last o => ?_
      rw [more.eq_def]
      exact if_neg (by cases digits <;> decide)
    · exact absurd (List.cons.inj heq).1 (by decide)
  | @word c format ap x hc h ih =>
    obtain ⟨l, hl⟩ := ih
    have hother : ∀ c ∈ ['d', 'i', 'u', 'o', 'x', 'X', 'p', 'c'].map ch, isDigit c = false ∧
        c ≠ ch '*' ∧ c ≠ ch '#' ∧ c ≠ ch 'h' := by
      decide
    obtain ⟨hdigit, hstar, halt, hh⟩ := hother c hc
    refine ⟨fun digits flags width => ?_, fun format' heq => absurd (List.cons.inj heq).1 hh⟩
    exact more_convert hdigit hstar halt hh (convert_word hc flags width x ap) hl
  | str s h ih =>
    obtain ⟨l, hl⟩ := ih
    refine ⟨fun digits flags width => ?_, fun format' heq => ?_⟩
    · exact more_convert (by decide) (by decide) (by decide) (by decide)
        ⟨stringText width s, fun last o => congrArg (fun o => some (_, o))
          (putString_eq width s last o)⟩ hl
    · exact absurd (List.cons.inj heq).1 (by decide)
  | percent h ih =>
    obtain ⟨l, hl⟩ := ih
    refine ⟨fun digits flags width => ?_, fun format' heq => ?_⟩
    · exact more_convert (by decide) (by decide) (by decide) (by decide)
        ⟨[ch '%'], fun last o => rfl⟩ hl
    · exact absurd (List.cons.inj heq).1 (by decide)

end Interpreter

/-! ## The buffer -/

/-- What a call is to do with its text: it stores in the buffer only, as much of the text
as leaves room for the terminator, and returns the length of the text. -/
structure FillsBuffer (m : Mem) (str size : Nat) (l : List Byte) (r : Printed) : Prop where
  frame : ∀ a, a < str ∨ str + size ≤ a → r.mem a = m a
  text : r.mem.bytes str (min l.length (size - 1)) = l.take (size - 1)
  nul : 0 < size → r.mem (str + min l.length (size - 1)) = 0
  ret : r.ret.toInt = l.length

theorem endOf_eq {str size : Nat} (hpos : 0 < str + size) (hend : str + size ≤ 2 ^ 32) :
    endOf str size = str + size - 1 := by
  unfold endOf
  omega

section Buffer

variable {format : CString} {ap : List Arg} {l : List Byte}

/-- What a call that prints `l` leaves in memory. -/
def stored (m : Mem) (str size : Nat) (l : List Byte) : Mem :=
  putNul str (endOf str size) (puts (endOf str size) ⟨m, str⟩ l)

/-- A call stores its text, and then a terminator. -/
theorem vsnprintf_prints (h : Prints (fun last o => vsnprintfLoop last format.val ap o) l)
    (m : Mem) (str size : Nat) : vsnprintf m str size format ap =
      some ⟨stored m str size l, BitVec.ofNat 32 l.length⟩ := by
  have hloop : vsnprintfLoop (endOf str size) format.val ap ⟨m, str⟩ =
      some (puts (endOf str size) ⟨m, str⟩ l) := h _ _
  rw [vsnprintf, hloop, Option.map_some, puts_p, Nat.add_sub_cancel_left]
  rfl

/-- The pointer behind a text. -/
theorem puts_addr (last : Nat) (o : Cursor) (l : List Byte) :
    (puts last o l).addr = (o.p + l.length) % 2 ^ 32 := by
  rw [Cursor.addr, puts_p]

/-- Nothing is stored in a buffer of no bytes, unless its end is at address 0. -/
theorem stored_empty {str : Nat} (hpos : 0 < str) (hlen : str + l.length < 2 ^ 32) (m : Mem) :
    stored m str 0 l = m := by
  have hlast : endOf str 0 = str - 1 := endOf_eq hpos (by omega)
  rw [stored, putNul, puts_addr, hlast, if_neg (by dsimp only; omega), if_neg (by omega)]
  funext a
  rw [puts_mem_of_lt (by omega) hlen, if_neg (by dsimp only; omega)]

/-- The terminator is behind the text, or in the last byte of the buffer. -/
theorem stored_succ {str n : Nat} (hend : str + (n + 1) ≤ 2 ^ 32)
    (hlen : str + l.length < 2 ^ 32) (m : Mem) : stored m str (n + 1) l =
      (puts (str + n) ⟨m, str⟩ l).mem.st8 (str + min l.length n) 0 := by
  have hlast : endOf str (n + 1) = str + n := endOf_eq (by omega) hend
  rw [stored, putNul, puts_addr, hlast, Nat.mod_eq_of_lt hlen]
  rcases Nat.lt_or_ge n l.length with hlt | hge
  · rw [if_neg (by omega), if_pos (by omega), Nat.min_eq_right (Nat.le_of_lt hlt)]
  · rw [if_pos (by omega), Nat.min_eq_left hge]

/-- A call fills its buffer, when the buffer and the text behind `str` end inside the
address space. -/
theorem vsnprintf_fills (h : Prints (fun last o => vsnprintfLoop last format.val ap o) l)
    (m : Mem) {str size : Nat} (hpos : 0 < str + size) (hend : str + size ≤ 2 ^ 32)
    (hlen : str + l.length < 2 ^ 32) (hret : l.length < 2 ^ 31) :
    ∃ r, vsnprintf m str size format ap = some r ∧ FillsBuffer m str size l r := by
  have hint : (BitVec.ofNat 32 l.length).toInt = l.length := by
    have hnat : (BitVec.ofNat 32 l.length).toNat = l.length := by
      rw [BitVec.toNat_ofNat, Nat.mod_eq_of_lt (by omega)]
    rw [BitVec.toInt_eq_toNat_of_lt (by omega), hnat]
  refine ⟨_, vsnprintf_prints h m str size, ?_⟩
  cases size with
  | zero =>
    rw [stored_empty (by omega) hlen]
    refine ⟨fun _ _ => rfl, ?_, fun h => absurd h (Nat.lt_irrefl 0), hint⟩
    rw [Nat.zero_sub, Nat.min_zero]
    rfl
  | succ n =>
    have hmem : ∀ a, (puts (str + n) ⟨m, str⟩ l).mem a =
        if str ≤ a ∧ a < str + n then l.getD (a - str) (m a) else m a :=
      puts_mem_of_lt (by omega) hlen
    rw [stored_succ hend hlen]
    refine ⟨fun a ha => ?_, List.ext_getElem (by simp [Nat.min_comm]) fun i hi _ => ?_,
      fun _ => Mem.st8_self _ _ _, hint⟩
    · show Mem.st8 _ _ _ a = m a
      rw [Mem.st8_of_ne _ _ (by omega), hmem, if_neg (by omega)]
    · rw [Mem.length_bytes, Nat.add_sub_cancel] at hi
      rw [Mem.getElem_bytes, List.getElem_take]
      show Mem.st8 _ _ _ (str + i) = _
      rw [Mem.st8_of_ne _ _ (by omega), hmem, if_pos (by omega), Nat.add_sub_cancel_left]
      exact (List.getElem_eq_getD _).symm

/-- With a buffer of no bytes at address 0, `end` is the last address: the text and its
terminator are stored from address 0 on. -/
theorem not_fills_null (hlen : l.length < 2 ^ 31) : ∃ m : Mem, ∀ ret,
    ¬ FillsBuffer m 0 0 l ⟨stored m 0 0 l, ret⟩ := by
  obtain ⟨m, hm⟩ : ∃ m : Mem, m = fun _ => 1 := ⟨_, rfl⟩
  refine ⟨m, fun ret h => ?_⟩
  have hframe : stored m 0 0 l l.length = m l.length := h.frame _ (.inr (Nat.zero_le _))
  have hlast : endOf 0 0 = 2 ^ 32 - 1 := rfl
  rw [stored, putNul, puts_addr, Nat.zero_add, Nat.mod_eq_of_lt (by omega), if_pos (by omega),
    Mem.st8_self, hm] at hframe
  exact absurd (show (0 : Byte) = 1 from hframe) (by decide)

/-- A buffer that would go on behind the last address has its `end` below `str`: nothing is
stored in its first byte. -/
theorem not_fills_long {str size : Nat} (hstr : str < 2 ^ 32) (hsize : size < 2 ^ 32)
    (hend : 2 ^ 32 < str + size) (hlen : l.length < 2 ^ 31) : ∃ m : Mem, ∀ ret,
      ¬ FillsBuffer m str size l ⟨stored m str size l, ret⟩ := by
  obtain ⟨m, hm⟩ : ∃ m : Mem, m = fun _ => l.headD 0 + 1 := ⟨_, rfl⟩
  refine ⟨m, fun ret h => ?_⟩
  have hlast : endOf str size < str := by
    unfold endOf
    omega
  have hkept : stored m str size l str = l.headD 0 + 1 := by
    have hputs : (puts (endOf str size) ⟨m, str⟩ l).mem str = m str := by
      rw [puts_mem (by omega) l _ _ (by omega), if_neg (Nat.lt_asymm hlast)]
    rw [stored, putNul, if_neg (Nat.not_le.mpr hlast)]
    split
    · rw [Mem.st8_of_ne _ _ (by omega), hputs, hm]
    · rw [hputs, hm]
  have hfirst : stored m str size l str = l.headD 0 := by
    cases l with
    | nil => exact h.nul (by omega)
    | cons c l =>
      obtain ⟨n, hn⟩ : ∃ n, size - 1 = n + 1 := ⟨size - 2, by omega⟩
      have htext := congrArg List.head? h.text
      rw [hn, List.length_cons, Nat.succ_min_succ, Mem.bytes_succ] at htext
      exact Option.some.inj htext
  rw [hkept] at hfirst
  exact absurd hfirst (by bv_omega)

/-- A text that goes on behind the last address: what comes there, a character or the
terminator, is stored at address 0. -/
theorem not_fills_round {str size : Nat} (hpos : 0 < str + size) (hend : str + size ≤ 2 ^ 32)
    (hstr : str < 2 ^ 32) (hround : 2 ^ 32 ≤ str + l.length) (hlen : l.length < 2 ^ 31) :
    ∃ m : Mem, ∀ ret, ¬ FillsBuffer m str size l ⟨stored m str size l, ret⟩ := by
  obtain ⟨c, hc⟩ : ∃ c, c = l.getD (2 ^ 32 - str) 0 := ⟨_, rfl⟩
  obtain ⟨m, hm⟩ : ∃ m : Mem, m = fun _ => c + 1 := ⟨_, rfl⟩
  obtain ⟨last, hlast⟩ : ∃ last, last = endOf str size := ⟨_, rfl⟩
  have hlast' : last = str + size - 1 := hlast.trans (endOf_eq hpos hend)
  refine ⟨m, fun ret h => ?_⟩
  have hframe : putNul str last (puts last ⟨m, str⟩ l) 0 = m 0 := by
    rw [hlast]
    exact h.frame 0 (.inl (by omega))
  have hputs : (puts last ⟨m, str⟩ l).mem 0 = l.getD (2 ^ 32 - str) (m 0) := by
    have hahead : (⟨m, str⟩ : Cursor).ahead 0 = 2 ^ 32 - str := by
      unfold Cursor.ahead Cursor.addr
      dsimp only
      omega
    rw [puts_mem (by omega) l _ _ (by omega), if_pos (by omega), hahead]
  rw [putNul, puts_addr] at hframe
  dsimp only at hframe
  rcases Nat.lt_or_eq_of_le hround with hlt | heq
  · -- a character; the terminator is elsewhere
    have hother : (puts last ⟨m, str⟩ l).mem 0 = m 0 := by
      split at hframe
      · rwa [Mem.st8_of_ne _ _ (by omega)] at hframe
      · split at hframe
        · rwa [Mem.st8_of_ne _ _ (by omega)] at hframe
        · exact hframe
    rw [hother, List.getD_eq_getElem _ _ (by omega), ← List.getD_eq_getElem _ 0, ← hc, hm] at hputs
    exact absurd hputs (by bv_omega)
  · -- the terminator
    rw [← heq, Nat.mod_self, if_pos (Nat.zero_le _), Mem.st8_self, hm] at hframe
    rw [List.getD_eq_default _ _ (by omega)] at hc
    rw [hc] at hframe
    exact absurd hframe (by decide)

/-- **`vsnprintf` stays inside its buffer**, unless a pointer wraps.  For a well-formed call
there is a text, the same for all buffers, that the interpreter prints; if it is shorter
than `2 ^ 31` characters, a call fills the buffer, whatever the memory holds, if and only
if the buffer is not the one of no bytes at address 0, and neither the buffer nor the text
goes on behind the last address. -/
theorem vsnprintf_bounded_iff (h : WellFormed false format.val ap) :
    ∃ l : List Byte, Prints (fun last o => vsnprintfLoop last format.val ap o) l ∧
      (∀ m str size, ∃ r, vsnprintf m str size format ap = some r ∧
        r.ret = BitVec.ofNat 32 l.length) ∧
      (l.length < 2 ^ 31 → ∀ str size : BitVec 32,
        ((∀ m, ∃ r, vsnprintf m str.toNat size.toNat format ap = some r ∧
          FillsBuffer m str.toNat size.toNat l r) ↔
        0 < str.toNat + size.toNat ∧ str.toNat + size.toNat ≤ 2 ^ 32 ∧
          str.toNat + l.length < 2 ^ 32)) := by
  obtain ⟨l, hl⟩ := h.prints
  refine ⟨l, hl, fun m str size => ⟨_, vsnprintf_prints hl m str size, rfl⟩,
    fun hlen str size => ⟨fun hfills => ?_, fun ⟨hpos, hend, htext⟩ m =>
      vsnprintf_fills hl m hpos hend htext hlen⟩⟩
  have hbad : ¬ ∃ m : Mem, ∀ ret,
      ¬ FillsBuffer m str.toNat size.toNat l ⟨stored m str.toNat size.toNat l, ret⟩ := by
    rintro ⟨m, hm⟩
    obtain ⟨r, hr, hfill⟩ := hfills m
    rw [vsnprintf_prints hl] at hr
    exact hm _ (Option.some.inj hr ▸ hfill)
  have hend : str.toNat + size.toNat ≤ 2 ^ 32 :=
    Nat.not_lt.mp fun hlt => hbad (not_fills_long str.isLt size.isLt hlt hlen)
  have hpos : 0 < str.toNat + size.toNat := by
    refine Nat.pos_of_ne_zero fun hzero => hbad ?_
    rw [Nat.eq_zero_of_add_eq_zero_right hzero, Nat.eq_zero_of_add_eq_zero_left hzero]
    exact not_fills_null hlen
  exact ⟨hpos, hend, Nat.not_le.mp fun hge => hbad (not_fills_round hpos hend str.isLt hge hlen)⟩

end Buffer

/-- `"amiga_%u"`. -/
def amigaName : CString := ⟨['a', 'm', 'i', 'g', 'a', '_', '%', 'u'].map ch, by decide⟩

theorem wellFormed_amigaName (x : BitVec 32) : WellFormed false amigaName.val [.word x] :=
  .char (by decide) (.char (by decide) (.char (by decide) (.char (by decide)
    (.char (by decide) (.char (by decide)
      (.conversion (.word x (by decide) (.nil []))))))))

/-- `snprintf(name, sizeof(name), "amiga_%u", nsec*80)` of `adf_test`, with 11 sectors. -/
theorem vsnprintf_bounded_amiga_name :
    ∃ r, vsnprintf (fun _ => 0xff) 4 16 amigaName [.word 880] = some r ∧ FillsBuffer
      (fun _ => 0xff) 4 16 (['a', 'm', 'i', 'g', 'a', '_', '8', '8', '0'].map ch) r := by
  obtain ⟨l, hl, -, hiff⟩ := vsnprintf_bounded_iff (wellFormed_amigaName 880)
  have hprinted : vsnprintfLoop 16 amigaName.val [.word 880] ⟨fun _ => 0xff, 0⟩ =
      some (puts 16 ⟨fun _ => 0xff, 0⟩ l) := hl _ _
  have hrun : (vsnprintfLoop 16 amigaName.val [.word 880] ⟨fun _ => 0xff, 0⟩).map
      (fun o => (o.mem.bytes 0 9, o.p)) =
        some (['a', 'm', 'i', 'g', 'a', '_', '8', '8', '0'].map ch, 9) := by
    decide +kernel
  rw [hprinted] at hrun
  obtain ⟨hbytes, hp⟩ := Prod.mk.inj (Option.some.inj hrun)
  rw [puts_p, Nat.zero_add] at hp
  have htext : l = ['a', 'm', 'i', 'g', 'a', '_', '8', '8', '0'].map ch := by
    rw [← hbytes]
    refine List.ext_getElem (by rw [Mem.length_bytes, hp]) fun i hi _ => ?_
    rw [Mem.getElem_bytes, puts_mem_of_lt (by decide) (by dsimp only; omega),
      if_pos (by dsimp only; omega), Nat.zero_add, Nat.sub_zero]
    exact List.getElem_eq_getD _
  obtain ⟨r, hr, hfills⟩ := ((hiff (by omega) 4 16).mpr (by
    rw [hp]
    decide)) fun _ => 0xff
  exact ⟨r, hr, htext ▸ hfills⟩

/-- `snprintf(NULL, 0, "amiga_%u", 880)` stores the name at address 0, and with the largest
size nothing is stored. -/
theorem vsnprintf_bounded_null : WellFormed false amigaName.val [.word 880] ∧
    (∃ r, vsnprintf (fun _ => 0xff) 0 0 amigaName [.word 880] = some r ∧
      r.mem.bytes 0 10 = ['a', 'm', 'i', 'g', 'a', '_', '8', '8', '0'].map ch ++ [0] ∧
      ∀ l, ¬ FillsBuffer (fun _ => 0xff) 0 0 l r) ∧
    ∃ r, vsnprintf (fun _ => 0xff) 0x20000000 0xffffffff amigaName [.word 880] = some r ∧
      r.mem.bytes 0x20000000 10 = List.replicate 10 0xff ∧
      ∀ l, ¬ FillsBuffer (fun _ => 0xff) 0x20000000 0xffffffff l r := by
  have hnull : (vsnprintf (fun _ => 0xff) 0 0 amigaName [.word 880]).map
      (fun r => r.mem.bytes 0 10) =
        some (['a', 'm', 'i', 'g', 'a', '_', '8', '8', '0'].map ch ++ [0]) := by
    decide +kernel
  have hlong : (vsnprintf (fun _ => 0xff) 0x20000000 0xffffffff amigaName [.word 880]).map
      (fun r => (r.mem.bytes 0x20000000 10, r.ret.toInt)) =
        some (List.replicate 10 0xff, 9) := by
    decide +kernel
  obtain ⟨r, hr, hbytes⟩ := Option.map_eq_some_iff.mp hnull
  obtain ⟨r', hr', hrun⟩ := Option.map_eq_some_iff.mp hlong
  obtain ⟨hbytes', hret⟩ := Prod.mk.inj hrun
  refine ⟨wellFormed_amigaName 880, ⟨r, hr, hbytes, fun l h => ?_⟩,
    r', hr', hbytes', fun l h => ?_⟩
  · have hframe := h.frame 0 (.inr (Nat.le_refl 0))
    have hfirst := congrArg (fun l => l.getD 0 0) hbytes
    rw [show (r.mem.bytes 0 10).getD 0 0 = r.mem 0 from rfl, hframe] at hfirst
    exact absurd hfirst (by decide)
  · have hlen : l.length = 9 := by
      have := h.ret
      omega
    have hnul := h.nul (by decide)
    rw [hlen] at hnul
    have hlast := congrArg (fun l => l.getD 9 0) hbytes'
    rw [show (r'.mem.bytes 0x20000000 10).getD 9 0 = r'.mem (0x20000000 + 9) from rfl] at hlast
    exact absurd (hnul.symm.trans hlast) (by decide)

end FlashFloppyTestbed
