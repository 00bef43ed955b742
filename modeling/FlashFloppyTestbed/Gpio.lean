/-
  Gpio.lean --- the port pins: `gpio_configure_pin` of `src/stm32f10x.c`, and the
  pull-ups of `src/gotek/board.c`.

  A port keeps four bits of configuration for each of its pins, eight pins to a
  register, and one output bit.  `mode` and `out` read these back; what a call does
  is said in terms of them, for the pin it is for and for the others
  (`Gpio.configurePin_mode`, `Gpio.configurePin_out`).
-/
import Mathlib.Data.BitVec
import Mathlib.Tactic.Common

set_option autoImplicit false

namespace FlashFloppyTestbed

/-! ## Fields of four bits -/

/-- Field `k` of a register. -/
def nibble (x : BitVec 32) (k : Nat) : BitVec 4 := (x >>> (4 * k)).setWidth 4

/-- A register with field `k` replaced by the low bits of `v`. -/
def setNibble (x : BitVec 32) (k : Nat) (v : BitVec 32) : BitVec 32 :=
  (x &&& ~~~ (0xf#32 <<< (4 * k))) ||| ((v &&& 0xf#32) <<< (4 * k))

theorem getLsbD_lowMask (n i : Nat) :
    (BitVec.ofNat 32 (2 ^ n - 1)).getLsbD i = (decide (i < 32) && decide (i < n)) := by
  rw [BitVec.getLsbD_ofNat, Nat.testBit_two_pow_sub_one]

theorem getLsbD_fifteen (i : Nat) : (0xf#32).getLsbD i = decide (i < 4) := by
  have h := getLsbD_lowMask 4 i
  rw [show BitVec.ofNat 32 (2 ^ 4 - 1) = 0xf#32 from rfl] at h
  rw [h]
  by_cases hi : i < 4
  · simp [hi, show i < 32 by omega]
  · simp [hi]

theorem nibble_setNibble {k : Nat} (hk : k < 8) (x v : BitVec 32) (j : Nat) (hj : j < 8) :
    nibble (setNibble x k v) j = if j = k then v.setWidth 4 else nibble x j := by
  apply BitVec.eq_of_getLsbD_eq
  intro i hi
  have hbit : (nibble (setNibble x k v) j).getLsbD i =
      if j = k then v.getLsbD i else x.getLsbD (4 * j + i) := by
    simp only [nibble, setNibble, BitVec.getLsbD_setWidth, BitVec.getLsbD_ushiftRight,
      BitVec.getLsbD_or, BitVec.getLsbD_and, BitVec.getLsbD_not, BitVec.getLsbD_shiftLeft,
      getLsbD_fifteen]
    by_cases hjk : j = k
    · subst hjk
      simp [show 4 * j + i < 32 by omega, show ¬ 4 * j + i < 4 * j by omega, hi]
    · have hout : ¬ (4 * k ≤ 4 * j + i ∧ 4 * j + i - 4 * k < 4) := by omega
      by_cases hle : 4 * k ≤ 4 * j + i
      · have hge : ¬ 4 * j + i - 4 * k < 4 := fun h => hout ⟨hle, h⟩
        simp [hjk, show 4 * j + i < 32 by omega, hi, hge]
      · simp [hjk, show 4 * j + i < 32 by omega, hi, Nat.lt_of_not_le hle]
  rw [hbit]
  by_cases hjk : j = k
  · rw [if_pos hjk, if_pos hjk, BitVec.getLsbD_setWidth, decide_eq_true hi, Bool.true_and]
  · rw [if_neg hjk, if_neg hjk, nibble, BitVec.getLsbD_setWidth, decide_eq_true hi, Bool.true_and,
      BitVec.getLsbD_ushiftRight]

/-! ## Ports -/

/-- `struct gpio`, as far as pins are configured through it. -/
structure Gpio where
  crl : BitVec 32
  crh : BitVec 32
  odr : BitVec 32
  deriving DecidableEq

namespace Gpio

/-- The configuration of a pin. -/
def mode (g : Gpio) (pin : Nat) : BitVec 4 :=
  if 8 ≤ pin then nibble g.crh (pin - 8) else nibble g.crl pin

/-- The output bit of a pin. -/
def out (g : Gpio) (pin : Nat) : Bool := g.odr.getLsbD pin

/-- A store to `bsrr`: the low half sets output bits, the high half resets others. -/
def setBsrr (g : Gpio) (x : BitVec 32) : Gpio :=
  { g with odr := (g.odr &&& ~~~ (x >>> 16)) ||| (x &&& 0xffff#32) }

/-- `gpio_write_pin`. -/
def writePin (g : Gpio) (pin : Nat) (level : BitVec 32) : Gpio :=
  g.setBsrr ((if level ≠ 0 then 0x1#32 else 0x10000#32) <<< pin)

/-- The store to `crl` or `crh` of `gpio_configure_pin`. -/
def setMode (g : Gpio) (pin : Nat) (mode : BitVec 32) : Gpio :=
  if 8 ≤ pin then { g with crh := setNibble g.crh (pin - 8) mode }
  else { g with crl := setNibble g.crl pin mode }

/-- `gpio_configure_pin`. -/
def configurePin (g : Gpio) (pin : Nat) (mode : BitVec 32) : Gpio :=
  (g.writePin pin (mode >>> 4)).setMode pin mode

/-- `GPI_floating`. -/
def inFloating : BitVec 32 := 0x4

/-- `_GPI_pulled(level)`. -/
def inPulled (level : BitVec 32) : BitVec 32 := 0x8 ||| (level <<< 4)

/-- `GPI_pull_down`. -/
def inPullDown : BitVec 32 := inPulled 0

/-- `GPI_pull_up`. -/
def inPullUp : BitVec 32 := inPulled 1

/-- `GPO_opendrain(speed, level)`. -/
def outOpendrain (speed level : BitVec 32) : BitVec 32 := 0x4 ||| speed ||| (level <<< 4)

/-! ## What the stores do -/

theorem mode_writePin (g : Gpio) (pin : Nat) (level : BitVec 32) (p : Nat) :
    (g.writePin pin level).mode p = g.mode p := rfl

theorem out_setMode (g : Gpio) (pin : Nat) (mode : BitVec 32) (p : Nat) :
    (g.setMode pin mode).out p = g.out p := by
  rw [setMode, out, out]
  split_ifs <;> rfl

theorem mode_setMode (g : Gpio) {pin : Nat} (hpin : pin < 16) (mode : BitVec 32) {p : Nat}
    (hp : p < 16) :
    (g.setMode pin mode).mode p = if p = pin then mode.setWidth 4 else g.mode p := by
  rw [setMode]
  split_ifs with hhigh hsame hsame
  · rw [Gpio.mode, if_pos (by omega), nibble_setNibble (by omega) _ _ _ (by omega),
      if_pos (by omega)]
  · rcases Nat.lt_or_ge p 8 with hlow | hge
    · rw [Gpio.mode, Gpio.mode, if_neg (Nat.not_le.mpr hlow), if_neg (Nat.not_le.mpr hlow)]
    · rw [Gpio.mode, Gpio.mode, if_pos hge, if_pos hge,
        nibble_setNibble (by omega) _ _ _ (by omega), if_neg (by omega)]
  · rw [Gpio.mode, if_neg (by omega), nibble_setNibble (by omega) _ _ _ (by omega),
      if_pos (by omega)]
  · rcases Nat.lt_or_ge p 8 with hlow | hge
    · rw [Gpio.mode, Gpio.mode, if_neg (Nat.not_le.mpr hlow), if_neg (Nat.not_le.mpr hlow),
        nibble_setNibble (by omega) _ _ _ (by omega), if_neg hsame]
    · rw [Gpio.mode, Gpio.mode, if_pos hge, if_pos hge]

theorem getLsbD_setBsrr (g : Gpio) (x : BitVec 32) {p : Nat} (hp : p < 16) :
    (g.setBsrr x).out p = ((g.out p && !x.getLsbD (16 + p)) || x.getLsbD p) := by
  have hlow : (0xffff#32).getLsbD p = true := by
    have h := getLsbD_lowMask 16 p
    rw [show BitVec.ofNat 32 (2 ^ 16 - 1) = 0xffff#32 from rfl] at h
    rw [h, decide_eq_true hp, decide_eq_true (show p < 32 by omega), Bool.and_self]
  rw [setBsrr, out, BitVec.getLsbD_or, BitVec.getLsbD_and, BitVec.getLsbD_and, BitVec.getLsbD_not,
    BitVec.getLsbD_ushiftRight, hlow, decide_eq_true (show p < 32 by omega), Bool.true_and,
    Bool.and_true, out]

theorem out_writePin (g : Gpio) {pin : Nat} (hpin : pin < 16) (level : BitVec 32) {p : Nat}
    (hp : p < 16) :
    (g.writePin pin level).out p = if p = pin then decide (level ≠ 0) else g.out p := by
  have hbit : ∀ k i, k < 32 → i < 32 → ((0x1#32) <<< k).getLsbD i = decide (i = k) := by
    intro k i hk hi
    rw [← BitVec.twoPow_eq, BitVec.getLsbD_twoPow, decide_eq_true hk, Bool.true_and]
    exact decide_eq_decide.mpr eq_comm
  rw [writePin, getLsbD_setBsrr g _ hp]
  by_cases hlevel : level = 0
  · have hshift : (0x10000#32) <<< pin = (0x1#32) <<< (16 + pin) := by
      rw [BitVec.shiftLeft_add]
      rfl
    rw [if_neg (not_not.mpr hlevel), hshift, hbit _ _ (by omega) (by omega),
      hbit _ _ (by omega) (by omega)]
    by_cases hsame : p = pin
    · simp [hsame, hlevel]
    · simp [hsame, show p ≠ 16 + pin by omega]
  · rw [if_pos hlevel, hbit _ _ (by omega) (by omega), hbit _ _ (by omega) (by omega)]
    by_cases hsame : p = pin
    · simpa [hsame] using hlevel
    · simp [hsame, show 16 + p ≠ pin by omega]

/-! ## What the calls do -/

variable (g : Gpio) {pin p : Nat}

/-- **`gpio_configure_pin`** gives the pin the mode, and its output bit the level. -/
theorem configurePin_mode (hpin : pin < 16) (mode : BitVec 32) (hp : p < 16) :
    (g.configurePin pin mode).mode p = if p = pin then mode.setWidth 4 else g.mode p := by
  rw [configurePin, mode_setMode _ hpin _ hp, mode_writePin]

theorem configurePin_out (hpin : pin < 16) (mode : BitVec 32) (hp : p < 16) :
    (g.configurePin pin mode).out p = if p = pin then decide (mode >>> 4 ≠ 0) else g.out p := by
  rw [configurePin, out_setMode, out_writePin _ hpin _ hp]

/-- A pin that is an input with its pull-up on. -/
def PulledUp (g : Gpio) (p : Nat) : Prop := g.mode p = 0x8 ∧ g.out p = true

/-- A pin that is an input with its pull-down on. -/
def PulledDown (g : Gpio) (p : Nat) : Prop := g.mode p = 0x8 ∧ g.out p = false

/-- A pin that is as it was. -/
def SamePin (g g' : Gpio) (p : Nat) : Prop := g'.mode p = g.mode p ∧ g'.out p = g.out p

theorem configurePin_other {g : Gpio} (hpin : pin < 16) (mode : BitVec 32) (hp : p < 16)
    (hne : p ≠ pin) : SamePin g (g.configurePin pin mode) p :=
  ⟨by rw [configurePin_mode g hpin mode hp, if_neg hne],
    by rw [configurePin_out g hpin mode hp, if_neg hne]⟩

theorem pulledUp_configurePin (hpin : pin < 16) : (g.configurePin pin inPullUp).PulledUp pin :=
  ⟨by rw [configurePin_mode g hpin _ hpin, if_pos rfl]; rfl,
    by rw [configurePin_out g hpin _ hpin, if_pos rfl]; rfl⟩

theorem pulledDown_configurePin (hpin : pin < 16) :
    (g.configurePin pin inPullDown).PulledDown pin :=
  ⟨by rw [configurePin_mode g hpin _ hpin, if_pos rfl]; rfl,
    by rw [configurePin_out g hpin _ hpin, if_pos rfl]; rfl⟩

theorem SamePin.trans {g g' g'' : Gpio} (h : SamePin g g' p) (h' : SamePin g' g'' p) :
    SamePin g g'' p :=
  ⟨h'.1.trans h.1, h'.2.trans h.2⟩

theorem SamePin.pulledUp {g g' : Gpio} (h : SamePin g g' p) (hup : g.PulledUp p) :
    g'.PulledUp p :=
  ⟨h.1.trans hup.1, h.2.trans hup.2⟩

theorem SamePin.pulledDown {g g' : Gpio} (h : SamePin g g' p) (hdown : g.PulledDown p) :
    g'.PulledDown p :=
  ⟨h.1.trans hdown.1, h.2.trans hdown.2⟩

end Gpio

/-! ## Unused pins -/

/-- The loop of `gpio_pull_up_pins`, with `k` turns left. -/
def pullUpLoop : Nat → Nat → BitVec 16 → Gpio → Gpio
  | 0, _, _, g => g
  | k + 1, i, mask, g =>
    pullUpLoop k (i + 1) (mask >>> 1)
      (if mask &&& 1 ≠ 0 then g.configurePin i Gpio.inPullUp else g)

/-- `gpio_pull_up_pins`. -/
def gpioPullUpPins (g : Gpio) (mask : BitVec 16) : Gpio := pullUpLoop 16 0 mask g

theorem and_one_ne_zero (mask : BitVec 16) : mask &&& 1 ≠ 0 ↔ mask.getLsbD 0 = true := by
  have hone : ∀ i, (1 : BitVec 16).getLsbD i = decide (i = 0) := by
    intro i
    cases i with
    | zero => rfl
    | succ i => simp [BitVec.getLsbD_one]
  constructor
  · intro hne
    by_contra hclear
    refine hne (BitVec.eq_of_getLsbD_eq fun i _ => ?_)
    rw [BitVec.getLsbD_and, hone, show (0 : BitVec 16).getLsbD i = false from BitVec.getLsbD_zero]
    by_cases hi : i = 0
    · rw [hi, Bool.eq_false_iff.mpr hclear, Bool.false_and]
    · rw [decide_eq_false hi, Bool.and_false]
  · intro hset heq
    have hbit := congrArg (·.getLsbD 0) heq
    simp only [BitVec.getLsbD_and, hset, hone] at hbit
    exact absurd hbit (by decide)

/-- One turn, on its own pin. -/
theorem pullUpTurn_self (g : Gpio) {i : Nat} (hi : i < 16) (mask : BitVec 16) :
    if mask.getLsbD 0 then
      (if mask &&& 1 ≠ 0 then g.configurePin i Gpio.inPullUp else g).PulledUp i
    else Gpio.SamePin g (if mask &&& 1 ≠ 0 then g.configurePin i Gpio.inPullUp else g) i := by
  by_cases hbit : mask.getLsbD 0 = true
  · rw [if_pos hbit, if_pos ((and_one_ne_zero mask).mpr hbit)]
    exact Gpio.pulledUp_configurePin g hi
  · rw [if_neg hbit, if_neg (fun h => hbit ((and_one_ne_zero mask).mp h))]
    exact ⟨rfl, rfl⟩

/-- One turn, on the other pins. -/
theorem pullUpTurn_other (g : Gpio) {i : Nat} (hi : i < 16) (mask : BitVec 16) {p : Nat}
    (hp : p < 16) (hne : p ≠ i) :
    Gpio.SamePin g (if mask &&& 1 ≠ 0 then g.configurePin i Gpio.inPullUp else g) p := by
  split_ifs
  · exact Gpio.configurePin_other hi _ hp hne
  · exact ⟨rfl, rfl⟩

/-- The pins from `i` on: those in the mask are pulled up, the others are as they were. -/
theorem pullUpLoop_spec {k i : Nat} (hk : i + k ≤ 16) (mask : BitVec 16) (g : Gpio) {p : Nat}
    (hp : p < 16) :
    if i ≤ p ∧ p < i + k ∧ mask.getLsbD (p - i) = true then (pullUpLoop k i mask g).PulledUp p
    else Gpio.SamePin g (pullUpLoop k i mask g) p := by
  induction k generalizing i mask g with
  | zero =>
    rw [if_neg (by omega)]
    exact ⟨rfl, rfl⟩
  | succ k ih =>
    have hrest := ih (i := i + 1) (by omega) (mask >>> 1)
      (if mask &&& 1 ≠ 0 then g.configurePin i Gpio.inPullUp else g)
    rw [BitVec.getLsbD_ushiftRight] at hrest
    rw [pullUpLoop]
    by_cases hhere : p = i
    · -- its own turn, and then it is left alone
      subst hhere
      have hself := pullUpTurn_self g hp mask
      rw [if_neg (by omega)] at hrest
      rw [Nat.sub_self]
      by_cases hbit : mask.getLsbD 0 = true
      · rw [if_pos hbit] at hself
        rw [if_pos ⟨le_rfl, by omega, hbit⟩]
        exact hrest.pulledUp hself
      · rw [if_neg hbit] at hself
        rw [if_neg fun h => hbit h.2.2]
        exact hself.trans hrest
    · have hother := pullUpTurn_other g (i := i) (by omega) mask hp hhere
      by_cases hlater : i < p
      · rw [show 1 + (p - (i + 1)) = p - i by omega] at hrest
        by_cases hin : p < i + (k + 1) ∧ mask.getLsbD (p - i) = true
        · rw [if_pos ⟨by omega, by omega, hin.2⟩] at hrest
          rw [if_pos ⟨by omega, hin⟩]
          exact hrest
        · rw [if_neg fun h => hin ⟨by omega, h.2.2⟩] at hrest
          rw [if_neg fun h => hin h.2]
          exact hother.trans hrest
      · rw [if_neg (by omega)] at hrest
        rw [if_neg (by omega)]
        exact hother.trans hrest

/-- **`gpio_pull_up_pins`**, for every mask: the pins in it are pulled up, and no other pin
is touched. -/
theorem gpioPullUpPins_spec (g : Gpio) (mask : BitVec 16) {p : Nat} (hp : p < 16) :
    if mask.getLsbD p = true then (gpioPullUpPins g mask).PulledUp p
    else Gpio.SamePin g (gpioPullUpPins g mask) p := by
  have h := pullUpLoop_spec (k := 16) (i := 0) (by omega) mask g hp
  by_cases hbit : mask.getLsbD p = true
  · rw [if_pos ⟨p.zero_le, by omega, hbit⟩] at h
    rw [if_pos hbit]
    exact h
  · rw [if_neg fun hin => hbit hin.2.2] at h
    rw [if_neg hbit]
    exact h

/-! ## The board -/

/-- The ports whose pins are in use. -/
structure Ports where
  a : Gpio
  b : Gpio
  c : Gpio
  deriving DecidableEq

/-- `board_init`. -/
def boardInit (s : Ports) : Ports :=
  let paSkip : BitVec 16 := 0x0703
  let pbSkip : BitVec 16 := 0x0211
  let paSkip := paSkip ||| 0x1800
  let a := s.a.configurePin 11 Gpio.inPullDown
  let a := a.configurePin 12 Gpio.inPullDown
  { c := gpioPullUpPins s.c (~~~ 0x0000)
    a := gpioPullUpPins a (~~~ paSkip)
    b := gpioPullUpPins s.b (~~~ pbSkip) }

/-- The pins of port A that `board_init` leaves alone: floppy inputs, and the console. -/
def paKept : List Nat := [0, 1, 8, 9, 10]

/-- The pins of port B that `board_init` leaves alone: floppy inputs. -/
def pbKept : List Nat := [0, 4, 9]

theorem paMask : ∀ p < 16, (~~~ (0x0703 ||| 0x1800) : BitVec 16).getLsbD p =
    !decide (p = 11 ∨ p = 12 ∨ p ∈ paKept) := by
  decide

theorem pbMask : ∀ p < 16, (~~~ 0x0211 : BitVec 16).getLsbD p = !decide (p ∈ pbKept) := by
  decide

theorem pcMask : ∀ p < 16, (~~~ 0x0000 : BitVec 16).getLsbD p = true := by
  decide

section Board

variable (s : Ports) {p : Nat}

theorem boardInit_a (hp : p < 16) :
    if p = 11 ∨ p = 12 then (boardInit s).a.PulledDown p
    else if p ∈ paKept then Gpio.SamePin s.a (boardInit s).a p
    else (boardInit s).a.PulledUp p := by
  have hup := gpioPullUpPins_spec ((s.a.configurePin 11 Gpio.inPullDown).configurePin 12
    Gpio.inPullDown) (~~~ (0x0703 ||| 0x1800)) hp
  rw [paMask p hp] at hup
  by_cases husb : p = 11 ∨ p = 12
  · rw [if_pos husb]
    rw [decide_eq_true (show p = 11 ∨ p = 12 ∨ p ∈ paKept by tauto), if_neg (by decide)] at hup
    refine hup.pulledDown ?_
    rcases husb with rfl | rfl
    · exact (Gpio.configurePin_other (by decide) _ hp (by decide)).pulledDown
        (Gpio.pulledDown_configurePin _ hp)
    · exact Gpio.pulledDown_configurePin _ hp
  · obtain ⟨h11, h12⟩ := not_or.mp husb
    have hother : Gpio.SamePin s.a
        ((s.a.configurePin 11 Gpio.inPullDown).configurePin 12 Gpio.inPullDown) p :=
      (Gpio.configurePin_other (by decide) _ hp h11).trans
        (Gpio.configurePin_other (by decide) _ hp h12)
    rw [if_neg husb]
    by_cases hkept : p ∈ paKept
    · rw [decide_eq_true (show p = 11 ∨ p = 12 ∨ p ∈ paKept by tauto), if_neg (by decide)] at hup
      rw [if_pos hkept]
      exact hother.trans hup
    · rw [decide_eq_false (show ¬ (p = 11 ∨ p = 12 ∨ p ∈ paKept) by tauto),
        if_pos (by decide)] at hup
      rw [if_neg hkept]
      exact hup

theorem boardInit_b (hp : p < 16) :
    if p ∈ pbKept then Gpio.SamePin s.b (boardInit s).b p else (boardInit s).b.PulledUp p := by
  have hup := gpioPullUpPins_spec s.b (~~~ 0x0211) hp
  rw [pbMask p hp] at hup
  by_cases hkept : p ∈ pbKept
  · rw [decide_eq_true hkept, if_neg (by decide)] at hup
    rw [if_pos hkept]
    exact hup
  · rw [decide_eq_false hkept, if_pos (by decide)] at hup
    rw [if_neg hkept]
    exact hup

theorem pulledUp_boardInit_b (hp : p < 16) (hkept : p ∉ pbKept) : (boardInit s).b.PulledUp p := by
  have h := boardInit_b s hp
  rwa [if_neg hkept] at h

theorem boardInit_c (hp : p < 16) : (boardInit s).c.PulledUp p := by
  have hup := gpioPullUpPins_spec s.c (~~~ 0x0000) hp
  rw [if_pos (pcMask p hp)] at hup
  exact hup

end Board

end FlashFloppyTestbed
