/-
  Led/Display.lean --- text and numbers on the display: the public functions of
  `src/led_7seg.c`.

  The controller has a register for each position.  A transfer begins with a
  command; the one that sets an address is followed by bytes for the registers from
  there on.  It acknowledges as it likes, and takes what it acknowledges.  As soon
  as one of three tries is acknowledged to its end, the display shows the text
  (`tm1651UpdateDisplay_spec`).
-/
import FlashFloppyTestbed.Led.Tm1651
import FlashFloppyTestbed.FormatRun

set_option autoImplicit false

namespace FlashFloppyTestbed.Led

open FlashFloppyTestbed.Foundation

/-! ## Characters -/

/-- `letters`. -/
def letters : List Byte :=
  [0x77, 0x7c, 0x58, 0x5e, 0x79, 0x71, 0x6f, 0x74, 0x04,
   0x0e, 0x08, 0x38, 0x40, 0x54, 0x5c, 0x73, 0x67, 0x50,
   0x6d, 0x78, 0x1c, 0x09, 0x41, 0x76, 0x6e, 0x00]

/-- `digits`. -/
def digits : List Byte := [0x3f, 0x06, 0x5b, 0x4f, 0x66, 0x6d, 0x7d, 0x07, 0x7f, 0x6f]

/-- The segments of a character. -/
def segments (c : Byte) : Byte :=
  if ch '0' ≤ c ∧ c ≤ ch '9' then digits.getD (c - ch '0').toNat 0
  else if ch 'a' ≤ c ∧ c ≤ ch 'z' then letters.getD (c - ch 'a').toNat 0
  else if ch 'A' ≤ c ∧ c ≤ ch 'Z' then letters.getD (c - ch 'A').toNat 0
  else if c = ch '-' then 0x40
  else 0

/-- `for (i = 0; ((c = *p++) != '\0') && (i < 3); i++)`, with `k` turns left. -/
def stringLoop (m : Mem) : Nat → Nat → Nat → (Nat → Byte) → Nat → Byte
  | 0, _, _, d => d
  | k + 1, i, p, d =>
    if m p = 0 then d else stringLoop m k (i + 1) (p + 1) (Function.update d i (segments (m p)))

section Api

variable {σ : Type} (P : Peripheral σ) (undriven : Wire σ → Bool)

/-- `led_7seg_display_setting`, with the flag of its command. -/
def led7segDisplaySetting (w : Wire σ) (enable : Bool) : Bool × Wire σ :=
  tm1651SendCmd P undriven w (if enable then 0x88 + 1 else 0x80)

/-- `led_7seg_write_string`, with the flag of its update. -/
def led7segWriteString (w : Wire σ) (m : Mem) (p : Nat) : Bool × Wire σ :=
  tm1651UpdateDisplay P undriven w (stringLoop m 3 0 p fun _ => 0)

/-- `"%02u"`. -/
def twoDigits : CString := ⟨['%', '0', '2', 'u'].map ch, by decide⟩

/-- `"%03u"`. -/
def threeDigits : CString := ⟨['%', '0', '3', 'u'].map ch, by decide⟩

/-- `(nr_digits == 3) ? "%03u" : "%02u"`. -/
def decimalFormat (nrDigits : Nat) : CString := if nrDigits = 3 then threeDigits else twoDigits

/-- `led_7seg_write_decimal`, with `msg` at an address of `m`. -/
def led7segWriteDecimal (nrDigits : Nat) (w : Wire σ) (m : Mem) (msg : Buffer 4)
    (val : BitVec 32) : Option (Bool × Wire σ) :=
  (vsnprintf m msg.val 4 (decimalFormat nrDigits)
    [.word (val % (if nrDigits = 3 then 1000 else 100))]).map fun r =>
      led7segWriteString P undriven w r.mem msg.val

/-- `led_7seg_init`, with an empty string at `p`. -/
def led7segInit (w : Wire σ) (m : Mem) (p : Nat) : Wire σ :=
  let w := (tm1651Init P undriven w).2
  let w := (led7segWriteString P undriven w m p).2
  (led7segDisplaySetting P undriven w true).2

end Api

/-- A call of one of the public functions behind `led_7seg_init`, with the memory it is made
in. -/
inductive Call where
  | setting (enable : Bool)
  | string (m : Mem) (p : Nat)
  | decimal (m : Mem) (msg : Buffer 4) (val : BitVec 32)

section Calls

variable {σ : Type} (P : Peripheral σ) (undriven : Wire σ → Bool) (nrDigits : Nat)

/-- One call. -/
def call (w : Wire σ) : Call → Option (Bool × Wire σ)
  | .setting enable => some (led7segDisplaySetting P undriven w enable)
  | .string m p => some (led7segWriteString P undriven w m p)
  | .decimal m msg val => led7segWriteDecimal P undriven nrDigits w m msg val

/-- Calls one behind the other. -/
def callRun : List Call → Wire σ → Option (Wire σ)
  | [], w => some w
  | c :: cs, w => (call P undriven nrDigits w c).bind fun r => callRun cs r.2

end Calls

/-- The text of the registers: three characters at most, and blanks. -/
def shown (text : List Byte) (i : Nat) : Byte := if i < 3 then (text.map segments).getD i 0 else 0

/-- The loop leaves the text in `d`. -/
theorem stringLoop_spec {m : Mem} {text : List Byte} (hnul : 0 ∉ text) :
    ∀ (k i p : Nat) (d : Nat → Byte), m.Holds p text → ∀ j, stringLoop m k i p d j =
      if i ≤ j ∧ j < i + min k text.length then (text.map segments).getD (j - i) 0 else d j := by
  induction text with
  | nil =>
    intro k i p d h j
    rw [Mem.holds_nil] at h
    rw [if_neg (by simp only [List.length_nil]; omega)]
    cases k with
    | zero => rfl
    | succ k => rw [stringLoop, if_pos h]
  | cons c text ih =>
    intro k i p d h j
    obtain ⟨hc, hrest⟩ := Mem.holds_cons.mp h
    cases k with
    | zero => rw [stringLoop, if_neg (by omega)]
    | succ k =>
      have hne : m p ≠ 0 := by
        rw [hc]
        exact fun heq => hnul (heq ▸ List.mem_cons_self)
      rw [stringLoop, if_neg hne, hc,
        ih (fun hmem => hnul (List.mem_cons_of_mem _ hmem)) k (i + 1) (p + 1) _ hrest j,
        List.length_cons]
      rcases Nat.lt_trichotomy j i with hlt | rfl | hgt
      · rw [if_neg (by omega), if_neg (by omega), Function.update_of_ne (by omega)]
      · rw [if_neg (by omega), if_pos (by omega), Function.update_self, Nat.sub_self]
        rfl
      · rw [Function.update_of_ne (by omega)]
        refine if_congr (by omega) ?_ rfl
        rw [List.map_cons, show j - i = j - (i + 1) + 1 by omega, List.getD_cons_succ]

/-! ## The controller -/

/-- The display controller: its registers, the one that the next byte is for, whether the
next byte is a command, and how many bytes it has been sent. -/
structure Chip where
  registers : Nat → Byte
  pointer : Nat
  command : Bool
  count : Nat

/-- A controller that acknowledges, and takes, the bytes that `acks` tells. -/
def chip (acks : Nat → Bool) : Peripheral Chip where
  start := fun s => { s with command := true }
  byte := fun s x =>
    ({ registers :=
        if acks s.count && !s.command then Function.update s.registers s.pointer x
        else s.registers
       pointer :=
        if acks s.count then
          if s.command then if x &&& 0xc0 = 0xc0 then (x &&& 0x3f).toNat else s.pointer
          else s.pointer + 1
        else s.pointer
       command := s.command && !acks s.count
       count := s.count + 1 }, acks s.count)
  stop := id

section Chip

variable {acks : Nat → Bool}

/-- Bytes that are acknowledged are in the registers, from the pointer on. -/
theorem chip_bytes_data {xs : List Byte} : ∀ {s : Chip}, s.command = false →
    ((chip acks).bytes xs s).2 = false → ∀ j, ((chip acks).bytes xs s).1.registers j =
      if s.pointer ≤ j ∧ j < s.pointer + xs.length then xs.getD (j - s.pointer) 0
      else s.registers j := by
  induction xs with
  | nil =>
    intro s _ _ j
    rw [if_neg (by simp only [List.length_nil]; omega)]
    rfl
  | cons x xs ih =>
    intro s hcommand hacked j
    rw [Peripheral.bytes] at hacked ⊢
    by_cases hack : ((chip acks).byte s x).2 = true
    · rw [if_pos hack] at hacked ⊢
      have hack : acks s.count = true := hack
      obtain ⟨s', hs'⟩ : ∃ s', s' = ((chip acks).byte s x).1 := ⟨_, rfl⟩
      have hpointer : s'.pointer = s.pointer + 1 := by
        rw [hs']
        show (if acks s.count then if s.command then _ else s.pointer + 1 else s.pointer) = _
        rw [if_pos hack, if_neg (by rw [hcommand]; decide)]
      have hregisters : s'.registers = Function.update s.registers s.pointer x := by
        rw [hs']
        exact if_pos (by rw [hack, hcommand]; rfl)
      have hcommand' : s'.command = false := by
        rw [hs']
        show (s.command && !acks s.count) = false
        rw [hcommand, Bool.false_and]
      rw [← hs'] at hacked ⊢
      rw [ih hcommand' hacked j, hpointer, hregisters, List.length_cons]
      rcases Nat.lt_trichotomy j s.pointer with hlt | rfl | hgt
      · rw [if_neg (by omega), if_neg (by omega), Function.update_of_ne (by omega)]
      · rw [if_neg (by omega), if_pos (by omega), Function.update_self, Nat.sub_self]
        rfl
      · rw [Function.update_of_ne (by omega)]
        refine if_congr (by omega) ?_ rfl
        rw [show j - s.pointer = j - (s.pointer + 1) + 1 by omega, List.getD_cons_succ]
    · rw [if_neg hack] at hacked
      exact absurd (show true = false from hacked) (by decide)

/-- A transfer to the registers from 0 on that is acknowledged to its end. -/
theorem chip_frame_address {xs : List Byte} {s : Chip}
    (hacked : ((chip acks).frame (0xc0 :: xs) s).2 = false) (j : Nat) :
    ((chip acks).frame (0xc0 :: xs) s).1.registers j =
      if j < xs.length then xs.getD j 0 else s.registers j := by
  have hacked : ((chip acks).bytes (0xc0 :: xs) { s with command := true }).2 = false := hacked
  show ((chip acks).bytes (0xc0 :: xs) { s with command := true }).1.registers j = _
  rw [Peripheral.bytes] at hacked ⊢
  by_cases hack : ((chip acks).byte { s with command := true } 0xc0).2 = true
  · rw [if_pos hack] at hacked ⊢
    have hack : acks s.count = true := hack
    have hcommand : ((chip acks).byte { s with command := true } 0xc0).1.command = false := by
      show (true && !acks s.count) = false
      rw [hack]
      rfl
    have hpointer : ((chip acks).byte { s with command := true } 0xc0).1.pointer = 0 := by
      show (if acks s.count then (0 : Nat) else s.pointer) = 0
      rw [if_pos hack]
    have hregisters : ((chip acks).byte { s with command := true } 0xc0).1.registers =
        s.registers :=
      if_neg (by rw [Bool.not_true, Bool.and_false]; decide)
    rw [chip_bytes_data hcommand hacked j, hpointer, hregisters, Nat.zero_add, Nat.sub_zero]
    exact if_congr (by omega) rfl rfl
  · rw [if_neg hack] at hacked
    exact absurd (show true = false from hacked) (by decide)

/-- A command alone leaves the registers as they are. -/
theorem chip_frame_command (x : Byte) (s : Chip) :
    ((chip acks).frame [x] s).1.registers = s.registers := by
  have hbyte : ((chip acks).byte { s with command := true } x).1.registers = s.registers :=
    if_neg (by rw [Bool.not_true, Bool.and_false]; decide)
  show ((chip acks).bytes [x] { s with command := true }).1.registers = _
  rw [Peripheral.bytes]
  split_ifs
  · exact hbyte
  · exact hbyte

theorem chip_afterFrames_command (x : Byte) (k : Nat) (s : Chip) :
    ((chip acks).afterFrames [x] k s).registers = s.registers := by
  induction k generalizing s with
  | zero => rfl
  | succ k ih => rw [Peripheral.afterFrames, ih, chip_frame_command]

theorem chip_tries_command (x : Byte) (n : Nat) (s : Chip) :
    ((chip acks).tries [x] n s).1.registers = s.registers := by
  rcases (chip acks).tries_cases [x] n s with ⟨k, -, -, -, heq⟩ | ⟨-, heq⟩
  · rw [heq, chip_frame_command, chip_afterFrames_command]
  · rw [heq, chip_afterFrames_command]

end Chip

/-! ## What is shown -/

section Shows

variable (undriven : Wire Chip → Bool) (acks : Nat → Bool) {w : Wire Chip} {s : Chip}

/-- **A display update** that ends with success shows `d`; one that ends without has been
tried three times. -/
theorem tm1651UpdateDisplay_spec (h : At w ⟨.idle, s⟩ true true 4 1) (d : Nat → Byte) :
    ∃ s', At (tm1651UpdateDisplay (chip acks) undriven w d).2 ⟨.idle, s'⟩ true true 4 1 ∧
      (((tm1651UpdateDisplay (chip acks) undriven w d).1 = false ∧ ∀ i, i < 3 →
          s'.registers i = d i) ∨
        ((tm1651UpdateDisplay (chip acks) undriven w d).1 = true ∧ ∀ k, k < 3 →
          ((chip acks).frame [0xc0, d 0, d 1, d 2, 0x00]
            ((chip acks).afterFrames [0xc0, d 0, d 1, d 2, 0x00] k s)).2 = true)) := by
  obtain ⟨hflag, hat⟩ := tryLoop_spec (chip acks) undriven
    (List.cons_ne_nil 0xc0 [d 0, d 1, d 2, 0x00]) 3 h
  refine ⟨_, hat, ?_⟩
  rcases (chip acks).tries_cases [0xc0, d 0, d 1, d 2, 0x00] 3 s with
    ⟨k, -, -, hacked, heq⟩ | ⟨hall, heq⟩
  · refine .inl ⟨hflag.trans (by rw [heq, hacked]), fun i hi => ?_⟩
    rw [heq, chip_frame_address hacked, if_pos (by simp only [List.length_cons]; omega)]
    have hcases : i = 0 ∨ i = 1 ∨ i = 2 := by omega
    rcases hcases with rfl | rfl | rfl <;> rfl
  · exact .inr ⟨hflag.trans (by rw [heq]), hall⟩

theorem stringLoop_shown {m : Mem} {text : List Byte} (hnul : 0 ∉ text) {p : Nat}
    (hp : m.Holds p text) {i : Nat} (hi : i < 3) :
    stringLoop m 3 0 p (fun _ => 0) i = shown text i := by
  rw [stringLoop_spec hnul 3 0 p _ hp i, shown, if_pos hi, Nat.sub_zero]
  split_ifs with hin
  · rfl
  · rw [List.getD_eq_default _ _ (by rw [List.length_map]; omega)]

end Shows

/-! ## Numbers -/

/-- The last `k` digits of a number. -/
def decimalText (k n : Nat) : List Byte :=
  (List.range k).map fun i => ch (Nat.digitChar (n / 10 ^ (k - 1 - i) % 10))

/-- The number of digits on the display. -/
def decimalWidth (nrDigits : Nat) : Nat := if nrDigits = 3 then 3 else 2

theorem decimalText_succ (k n : Nat) :
    decimalText (k + 1) n = decimalText k (n / 10) ++ [ch (Nat.digitChar (n % 10))] := by
  rw [decimalText, List.range_succ, List.map_append, decimalText]
  congr 1
  · refine List.map_congr_left fun i hi => ?_
    rw [List.mem_range] at hi
    rw [Nat.div_div_eq_div_mul, ← Nat.pow_succ',
      show (k - 1 - i).succ = k + 1 - 1 - i by omega]
  · simp

theorem length_decimalText (k n : Nat) : (decimalText k n).length = k := by
  rw [decimalText, List.length_map, List.length_range]

theorem decimalText_zero_right (k : Nat) : decimalText k 0 = List.replicate k (ch '0') := by
  rw [decimalText, List.eq_replicate_iff]
  refine ⟨by rw [List.length_map, List.length_range], fun c hc => ?_⟩
  obtain ⟨i, -, rfl⟩ := List.mem_map.mp hc
  rw [Nat.zero_div]
  rfl

theorem numeralText_digit {n : Nat} (hn : n < 10) :
    numeralText 10 false n = [ch (Nat.digitChar n)] := by
  rw [numeralText, Nat.toDigits_of_lt_base hn]
  rfl

theorem numeralText_ten {n : Nat} (hn : 10 ≤ n) :
    numeralText 10 false n = numeralText 10 false (n / 10) ++ [ch (Nat.digitChar (n % 10))] := by
  rw [numeralText, Nat.toDigits_of_base_le (by decide) hn, List.map_append]
  rfl

/-- A numeral that is padded with zeros. -/
theorem paddedField_decimal {k : Nat} : ∀ {n : Nat}, n < 10 ^ (k + 1) →
    paddedField true (k + 1) [] (numeralText 10 false n) = decimalText (k + 1) n := by
  induction k with
  | zero =>
    intro n hn
    have hlt : n < 10 := hn
    rw [numeralText_digit hlt, decimalText_succ, Nat.mod_eq_of_lt hlt]
    rfl
  | succ k ih =>
    intro n hn
    rw [decimalText_succ]
    rcases Nat.lt_or_ge n 10 with hlt | hge
    · rw [numeralText_digit hlt, Nat.div_eq_of_lt hlt, decimalText_zero_right,
        Nat.mod_eq_of_lt hlt]
      rfl
    · rw [← ih (n := n / 10) (by rw [Nat.div_lt_iff_lt_mul (by decide), ← Nat.pow_succ]; exact hn),
        numeralText_ten hge]
      simp only [paddedField, List.nil_append, List.length_append, List.length_singleton, if_true,
        ← List.append_assoc]
      congr 3
      omega

/-- A string that is printed into a large enough buffer; nothing else is written. -/
theorem vsnprintf_holds {format : CString} {ap : List Arg} {l : List Byte}
    (h : Prints (fun last o => vsnprintfLoop last format.val ap o) l) (m : Mem) {size : Nat}
    (str : Buffer size) (hlen : l.length < size) (hsize : size ≤ 2 ^ 31) :
    ∃ r, vsnprintf m str.val size format ap = some r ∧ r.mem.Holds str.val l ∧
      ∀ a, a < str.val ∨ str.val + size ≤ a → r.mem a = m a := by
  have hend := str.property
  obtain ⟨r, hr, hfills⟩ : ∃ r, vsnprintf m str.val size format ap = some r ∧
      FillsBuffer m str.val size l r :=
    vsnprintf_fills h m (by omega) hend (by omega) (by omega)
  have htext := hfills.text
  have hnul := hfills.nul (by omega)
  rw [Nat.min_eq_left (by omega)] at htext hnul
  rw [List.take_of_length_le (by omega)] at htext
  refine ⟨r, hr, ?_, hfills.frame⟩
  rw [Mem.Holds, Mem.bytes_add, htext, Mem.bytes_succ, hnul]
  rfl

theorem decimalWidth_lt (nrDigits : Nat) : decimalWidth nrDigits < 2 ^ 31 := by
  unfold decimalWidth
  split_ifs <;> decide

/-- `"%02u"` and `"%03u"`. -/
def decimalDirective (nrDigits : Nat) : Directive :=
  ⟨true, false, decimalWidth nrDigits, .word, .u, decimalWidth_lt nrDigits⟩

theorem text_decimalDirective (nrDigits : Nat) :
    (decimalDirective nrDigits).text = (decimalFormat nrDigits).val := by
  have hwidth : (decimalDirective nrDigits).widthText =
      numeralText 10 false (decimalWidth nrDigits) := by
    refine (if_neg Bool.false_ne_true).trans (if_neg ?_)
    show decimalWidth nrDigits ≠ 0
    unfold decimalWidth
    split_ifs <;> decide
  have htext : (decimalDirective nrDigits).text =
      ch '%' :: ([ch '0'] ++ numeralText 10 false (decimalWidth nrDigits) ++ [] ++ [ch 'u']) := by
    rw [← hwidth]
    rfl
  rw [htext]
  by_cases h : nrDigits = 3
  · rw [show decimalWidth nrDigits = 3 from if_pos h, decimalFormat, if_pos h]
    rfl
  · rw [show decimalWidth nrDigits = 2 from if_neg h, decimalFormat, if_neg h]
    rfl

theorem prints_decimal (nrDigits : Nat) {x : BitVec 32}
    (hx : x.toNat < 10 ^ decimalWidth nrDigits) :
    Prints (fun last o => vsnprintfLoop last (decimalFormat nrDigits).val [.word x] o)
      (decimalText (decimalWidth nrDigits) x.toNat) := by
  intro last o
  have hemit := (decimalDirective nrDigits).emits_field x last [] [] o
  have htext := text_decimalDirective nrDigits
  have hfield : (decimalDirective nrDigits).field x =
      decimalText (decimalWidth nrDigits) x.toNat := by
    have hsigned : (decimalDirective nrDigits).flags.value x = x.toNat := rfl
    obtain ⟨k, hk⟩ : ∃ k, decimalWidth nrDigits = k + 1 := by
      rw [decimalWidth]
      split_ifs
      · exact ⟨2, rfl⟩
      · exact ⟨1, rfl⟩
    rw [hk] at hx ⊢
    rw [Directive.field, hsigned, ← paddedField_decimal hx, ← hk]
    rfl
  rw [List.append_nil, List.append_nil, htext, hfield] at hemit
  exact hemit

theorem zero_notMem_decimalText (k n : Nat) : 0 ∉ decimalText k n := by
  intro hmem
  obtain ⟨i, -, heq⟩ := List.mem_map.mp hmem
  have hdigit : ∀ d < 10, ch (Nat.digitChar d) ≠ 0 := by decide
  exact hdigit _ (Nat.mod_lt _ (by decide)) heq

theorem decimalText_mod (k n : Nat) : decimalText k (n % 10 ^ k) = decimalText k n := by
  refine List.map_congr_left fun i hi => ?_
  rw [List.mem_range] at hi
  have hpow : 10 ^ k = 10 ^ (k - 1 - i) * 10 ^ (i + 1) := by
    rw [← Nat.pow_add]
    congr 1
    omega
  rw [hpow, Nat.mod_mul_right_div_self,
    Nat.mod_mod_of_dvd _ (Dvd.intro_left _ (Nat.pow_succ ..).symm)]

/-- **`led_7seg_write_decimal`** writes the last two or three digits of its argument. -/
theorem led7segWriteDecimal_eq {σ : Type} (P : Peripheral σ) (undriven : Wire σ → Bool)
    (nrDigits : Nat) (w : Wire σ) (m : Mem) (msg : Buffer 4) (val : BitVec 32) :
    ∃ m', led7segWriteDecimal P undriven nrDigits w m msg val =
        some (led7segWriteString P undriven w m' msg.val) ∧
      m'.Holds msg.val (decimalText (decimalWidth nrDigits) val.toNat) := by
  obtain ⟨x, hx⟩ : ∃ x : BitVec 32, x = val % (if nrDigits = 3 then 1000 else 100) := ⟨_, rfl⟩
  have hval : x.toNat = val.toNat % 10 ^ decimalWidth nrDigits := by
    rw [hx, BitVec.toNat_umod]
    unfold decimalWidth
    split_ifs <;> rfl
  have hlt : x.toNat < 10 ^ decimalWidth nrDigits := by
    rw [hval]
    exact Nat.mod_lt _ (Nat.pow_pos (by decide))
  have hlen : decimalWidth nrDigits < 4 := by
    unfold decimalWidth
    split_ifs <;> decide
  obtain ⟨r, hr, hholds, -⟩ := vsnprintf_holds (prints_decimal nrDigits hlt) m msg
    (by rw [length_decimalText]; exact hlen) (by decide)
  refine ⟨r.mem, by rw [led7segWriteDecimal, ← hx, hr]; rfl, ?_⟩
  have htext : decimalText (decimalWidth nrDigits) x.toNat =
      decimalText (decimalWidth nrDigits) val.toNat := by
    rw [hval, decimalText_mod]
  rw [← htext]
  exact hholds

/-! ## Runs -/

/-- The transfer that a call makes, once or up to three times. -/
def transfer (nrDigits : Nat) : Call → List Byte
  | .setting enable => [if enable then 0x88 + 1 else 0x80]
  | .string m p =>
    let d := stringLoop m 3 0 p fun _ => 0
    [0xc0, d 0, d 1, d 2, 0x00]
  | .decimal _ _ val =>
    let d := shown (decimalText (decimalWidth nrDigits) val.toNat)
    [0xc0, d 0, d 1, d 2, 0x00]

theorem transfer_ne_nil (nrDigits : Nat) (c : Call) : transfer nrDigits c ≠ [] := by
  cases c <;> exact List.cons_ne_nil _ _

section Run

variable {σ : Type} (P : Peripheral σ) (undriven : Wire σ → Bool) (nrDigits : Nat)

/-- A call is the tries of its transfer. -/
theorem call_eq (w : Wire σ) (c : Call) :
    call P undriven nrDigits w c = some (tryLoop P undriven (transfer nrDigits c) 3 w) := by
  cases c with
  | setting enable => rfl
  | string m p => rfl
  | decimal m msg val =>
    obtain ⟨m', heq, hholds⟩ := led7segWriteDecimal_eq P undriven nrDigits w m msg val
    have hd := fun {i} hi => stringLoop_shown (zero_notMem_decimalText _ _) hholds (i := i) hi
    rw [call, heq, led7segWriteString, tm1651UpdateDisplay, hd (by decide), hd (by decide),
      hd (by decide)]
    rfl

/-- The memory of the peripheral behind some calls. -/
def memory (cs : List Call) (s : σ) : σ :=
  cs.foldl (fun s c => (P.tries (transfer nrDigits c) 3 s).1) s

theorem callRun_spec (cs : List Call) : ∀ {w : Wire σ} {s : σ}, At w ⟨.idle, s⟩ true true 4 1 →
    ∃ w', callRun P undriven nrDigits cs w = some w' ∧
      At w' ⟨.idle, memory P nrDigits cs s⟩ true true 4 1 := by
  induction cs with
  | nil => exact fun h => ⟨_, rfl, h⟩
  | cons c cs ih =>
    intro w s h
    obtain ⟨-, hat⟩ := tryLoop_spec P undriven (transfer_ne_nil nrDigits c) 3 h
    obtain ⟨w', hrun, hat'⟩ := ih hat
    exact ⟨w', by rw [callRun, call_eq]; exact hrun, hat'⟩

/-- What `led_7seg_init` does to the peripheral. -/
def booted (s : σ) : σ :=
  (P.tries [0x88 + 1] 3 (P.tries [0xc0, 0, 0, 0, 0] 3 (P.tries [0x40] 3 s).1).1).1

theorem led7segInit_spec {w : Wire σ} {s : σ} (h : At w ⟨.idle, s⟩ true true 4 1) {m : Mem}
    {p : Nat} (hp : m p = 0) :
    At (led7segInit P undriven w m p) ⟨.idle, booted P s⟩ true true 4 1 := by
  obtain ⟨-, h₁⟩ := tm1651Init_spec P undriven h
  obtain ⟨-, h₂⟩ := tryLoop_spec P undriven (List.cons_ne_nil 0xc0 [0, 0, 0, 0]) 3 h₁
  have hstring : led7segWriteString P undriven (tm1651Init P undriven w).2 m p =
      tryLoop P undriven [0xc0, 0, 0, 0, 0] 3 (tm1651Init P undriven w).2 := by
    rw [led7segWriteString, tm1651UpdateDisplay, stringLoop, if_pos hp]
  rw [← hstring] at h₂
  exact (tryLoop_spec P undriven (List.cons_ne_nil _ _) 3 h₂).2

/-- The port as `board_init` leaves it, with a peripheral that has not been sent anything. -/
def bootWire (ports : Ports) (s : σ) (now : Nat) : Wire σ :=
  ⟨(boardInit ports).b, ⟨true, true⟩, ⟨.idle, s⟩, now, [], []⟩

theorem bootWire_at (ports : Ports) (s : σ) (now : Nat) :
    At (bootWire ports s now) ⟨.idle, s⟩ true true 4 1 :=
  At.ofPulledUp (pulledUp_boardInit_b ports (by decide) (by decide))
    (pulledUp_boardInit_b ports (by decide) (by decide)) _ _

/-- **The driver over a run**, behind `board_init`: whatever the peripheral acknowledges, it
gets the transfers of the calls, byte for byte.  CLK changes every four microseconds at most,
and DAT never within one of a change of CLK; both are HIGH in the end. -/
theorem led_run_refines (ports : Ports) (s : σ) (now : Nat) {m : Mem} {p : Nat} (hp : m p = 0)
    (cs : List Call) :
    ∃ w, callRun P undriven nrDigits cs (led7segInit P undriven (bootWire ports s now) m p) =
        some w ∧
      w.recv = ⟨.idle, memory P nrDigits cs (booted P s)⟩ ∧ w.line = ⟨true, true⟩ ∧
      (w.clkEdges.Pairwise fun t t' => t' + 4 ≤ t) ∧
      ∀ t ∈ w.clkEdges, ∀ t' ∈ w.datEdges, t + 1 ≤ t' ∨ t' + 1 ≤ t := by
  have hboot := led7segInit_spec P undriven (bootWire_at ports s now) hp
  obtain ⟨w, hrun, hat⟩ := callRun_spec P undriven nrDigits cs hboot
  exact ⟨w, hrun, hat.recv, by rw [Wire.line, hat.drive, hat.recv]; rfl, hat.spaced, hat.apart⟩

end Run

/-- A run of one string, to a peripheral that acknowledges nothing. -/
theorem led_run_refines_silent :
    ∃ w, callRun (chip fun _ => false) (fun _ => true) 0 [.string (fun _ => 0) 0]
        (led7segInit (chip fun _ => false) (fun _ => true)
          (bootWire ⟨⟨0, 0, 0⟩, ⟨0, 0, 0⟩, ⟨0, 0, 0⟩⟩ ⟨fun _ => 0, 0, false, 0⟩ 0) (fun _ => 0) 0) =
        some w ∧ w.recv.phase = .idle ∧ w.recv.mem.count = 12 := by
  obtain ⟨w, hrun, hrecv, -⟩ := led_run_refines (chip fun _ => false) (fun _ => true) 0
    ⟨⟨0, 0, 0⟩, ⟨0, 0, 0⟩, ⟨0, 0, 0⟩⟩ ⟨fun _ => 0, 0, false, 0⟩ 0 (m := fun _ => 0) (p := 0) rfl
    [.string (fun _ => 0) 0]
  exact ⟨w, hrun, by rw [hrecv], by rw [hrecv]; rfl⟩

/-! ## The text on the display -/

/-- A call that writes a text, and the text. -/
def Call.Writes (nrDigits : Nat) (text : List Byte) : Call → Prop
  | .setting _ => False
  | .string m p => 0 ∉ text ∧ m.Holds p text
  | .decimal _ _ val => text = decimalText (decimalWidth nrDigits) val.toNat

section Text

variable (undriven : Wire Chip → Bool) (nrDigits : Nat) (acks : Nat → Bool)

theorem transfer_of_writes {c : Call} {text : List Byte} (h : c.Writes nrDigits text) :
    transfer nrDigits c = [0xc0, shown text 0, shown text 1, shown text 2, 0x00] := by
  cases c with
  | setting enable => exact absurd h id
  | string m p =>
    obtain ⟨hnul, hholds⟩ := h
    have hd := fun {i} hi => stringLoop_shown hnul hholds (i := i) hi
    rw [transfer, hd (by decide), hd (by decide), hd (by decide)]
  | decimal m msg val =>
    obtain rfl := h
    rfl

theorem memory_settings (enables : List Bool) (s : Chip) :
    (memory (chip acks) nrDigits (enables.map .setting) s).registers = s.registers := by
  induction enables generalizing s with
  | nil => rfl
  | cons enable enables ih =>
    rw [List.map_cons, memory, List.foldl_cons]
    exact (ih _).trans (chip_tries_command _ 3 s)

/-- **The display over a run**: behind whatever calls, a text or a number is shown as soon as
one of its three transfers is acknowledged to the end, and stays on the display however it is
switched. -/
theorem led_run_shows (ports : Ports) (s : Chip) (now : Nat) {m : Mem} {p : Nat} (hp : m p = 0)
    (pre : List Call) {c : Call} {text : List Byte} (hc : c.Writes nrDigits text)
    (enables : List Bool) :
    ∃ w r w', callRun (chip acks) undriven nrDigits pre
          (led7segInit (chip acks) undriven (bootWire ports s now) m p) = some w ∧
        call (chip acks) undriven nrDigits w c = some r ∧
        callRun (chip acks) undriven nrDigits (enables.map .setting) r.2 = some w' ∧
        (r.1 = false → ∀ i, i < 3 → w'.recv.mem.registers i = shown text i) ∧
        (r.1 = true → ∀ k, k < 3 → ((chip acks).frame
          [0xc0, shown text 0, shown text 1, shown text 2, 0x00] ((chip acks).afterFrames
            [0xc0, shown text 0, shown text 1, shown text 2, 0x00] k w.recv.mem)).2 = true) := by
  obtain ⟨w, hpre, hat⟩ := callRun_spec (chip acks) undriven nrDigits pre
    (led7segInit_spec (chip acks) undriven (bootWire_at ports s now) hp)
  obtain ⟨s₁, hs₁⟩ : ∃ s₁, s₁ = w.recv.mem := ⟨_, rfl⟩
  have hmem : memory (chip acks) nrDigits pre (booted (chip acks) s) = s₁ := by
    rw [hs₁, hat.recv]
  rw [hmem] at hat
  obtain ⟨s₂, hat₂, hcases⟩ := tm1651UpdateDisplay_spec undriven acks hat (shown text)
  have hcall : call (chip acks) undriven nrDigits w c =
      some (tm1651UpdateDisplay (chip acks) undriven w (shown text)) := by
    rw [call_eq, transfer_of_writes nrDigits hc]
    rfl
  obtain ⟨w', hpost, hat'⟩ := callRun_spec (chip acks) undriven nrDigits (enables.map .setting) hat₂
  refine ⟨w, _, w', hpre, hcall, hpost, fun hok i hi => ?_, fun hfail k hk => ?_⟩
  · rw [hat'.recv]
    rcases hcases with ⟨-, hregs⟩ | ⟨hflag, -⟩
    · rw [memory_settings, hregs i hi]
    · exact absurd (hok.symm.trans hflag) (by decide)
  · rw [← hs₁]
    rcases hcases with ⟨hflag, -⟩ | ⟨-, hall⟩
    · exact absurd (hfail.symm.trans hflag) (by decide)
    · exact hall k hk

end Text

/-- An array of four bytes at address 0. -/
def firstBuffer : Buffer 4 := ⟨0, by decide⟩

/-- The number 1942, on a display that is switched off and on again. -/
theorem led_run_shows_number :
    0 = (0 : Byte) ∧ (Call.decimal (fun _ => 0) firstBuffer 1942).Writes 0 (decimalText 2 1942) ∧
      ∃ (r : Bool × Wire Chip) (w' : Wire Chip),
        callRun (chip fun _ => true) (fun _ => false) 0 [.setting false, .setting true] r.2 =
            some w' ∧
          w'.recv.mem.registers 0 = 0x66 ∧ w'.recv.mem.registers 1 = 0x5b := by
  obtain ⟨w, r, w', -, -, hpost, hshown, hfailed⟩ := @led_run_shows (fun _ => false) 0
    (fun _ => true) ⟨⟨0, 0, 0⟩, ⟨0, 0, 0⟩, ⟨0, 0, 0⟩⟩ ⟨fun _ => 0, 0, false, 0⟩ 0 (fun _ => 0) 0
    rfl [.string (fun _ => 0) 0] (.decimal (fun _ => 0) firstBuffer 1942) (decimalText 2 1942) rfl
    [false, true]
  have hok : r.1 = false := by
    by_contra hne
    exact absurd (hfailed (Bool.eq_true_of_not_eq_false hne) 0 (by decide)) Bool.false_ne_true
  exact ⟨rfl, rfl, r, w', hpost, hshown hok 0 (by decide), hshown hok 1 (by decide)⟩

end FlashFloppyTestbed.Led
