/-
  Led/Tm1651.lean --- the two-wire protocol of `src/led_7seg.c`, with the display
  controller at the other end.

  DAT and CLK are pins 10 and 11 of port B, each pulled up for HIGH and driven for
  LOW.  A pin is configured in two stores, and between them a line may be neither
  driven nor pulled up; `undriven` is the level it has then.  After every store the
  controller sees the lines.  Times are in microseconds, and only the delays take
  time.

  Whatever the controller answers, the functions do to it what whole bytes would
  do (`tryLoop_spec`).
-/
import FlashFloppyTestbed.Gpio
import FlashFloppyTestbed.Foundation.TwoWire

set_option autoImplicit false

namespace FlashFloppyTestbed.Led

open FlashFloppyTestbed.Foundation

variable {σ : Type}

/-! ## The lines -/

/-- The port and what is behind it: the levels that the pins give the lines, the
controller, the time, and when CLK and DAT were last changed, latest first. -/
structure Wire (σ : Type) where
  gpiob : Gpio
  drive : Line
  recv : Receiver σ
  now : Nat
  clkEdges : List Nat
  datEdges : List Nat
  deriving DecidableEq

/-- `CYCLE`. -/
def cycle : Nat := 8

/-- `DAT_PIN`. -/
def datPin : Nat := 10

/-- `CLK_PIN`. -/
def clkPin : Nat := 11

/-- The level of a line with only this pin on it. -/
def pinLevel (g : Gpio) (pin : Nat) (undriven : Bool) : Bool :=
  if g.mode pin = 0x8 ∧ g.out pin = true then true
  else if g.mode pin = 0x6 ∧ g.out pin = false then false
  else undriven

/-- The lines with a controller that may pull DAT low. -/
def lineOf (drive : Line) (recv : Receiver σ) : Line := ⟨drive.clk, drive.dat && !recv.pulls⟩

namespace Wire

/-- The levels of the lines. -/
def line (w : Wire σ) : Line := lineOf w.drive w.recv

/-- The registers of the port become `g`, and the levels that the pins give `drive`. -/
def change (P : Peripheral σ) (w : Wire σ) (g : Gpio) (drive : Line) : Wire σ :=
  { gpiob := g
    drive := drive
    recv := w.recv.sees P w.line (lineOf drive w.recv)
    now := w.now
    clkEdges := if drive.clk = w.drive.clk then w.clkEdges else w.now :: w.clkEdges
    datEdges := if drive.dat = w.drive.dat then w.datEdges else w.now :: w.datEdges }

/-- A store that leaves the registers of the port at `g`. -/
def store (P : Peripheral σ) (undriven : Wire σ → Bool) (w : Wire σ) (g : Gpio) : Wire σ :=
  w.change P g ⟨pinLevel g clkPin (undriven w), pinLevel g datPin (undriven w)⟩

/-- `delay_us`. -/
def delayUs (w : Wire σ) (us : Nat) : Wire σ := { w with now := w.now + us }

end Wire

section Driver

variable (P : Peripheral σ) (undriven : Wire σ → Bool)

/-- `gpio_configure_pin(gpiob, pin, mode)`: the output bit first, then the mode. -/
def configure (w : Wire σ) (pin : Nat) (mode : BitVec 32) : Wire σ :=
  let w := w.store P undriven (w.gpiob.writePin pin (mode >>> 4))
  w.store P undriven (w.gpiob.setMode pin mode)

/-- `tm1651_set_pin`. -/
def tm1651SetPin (w : Wire σ) (pin : Nat) (level : Bool) : Wire σ :=
  if level then configure P undriven w pin Gpio.inPullUp
  else configure P undriven w pin (Gpio.outOpendrain 2 0)

/-- `tm1651_set_dat`. -/
def tm1651SetDat (w : Wire σ) (level : Bool) : Wire σ := tm1651SetPin P undriven w datPin level

/-- `tm1651_set_clk`. -/
def tm1651SetClk (w : Wire σ) (level : Bool) : Wire σ := tm1651SetPin P undriven w clkPin level

/-- The loop of `tm1651_write`.  Sixteen shifts clear a `uint16_t`. -/
def writeLoop : Nat → BitVec 16 → Bool → Wire σ → Bool × Wire σ
  | 0, _, fail, w => (fail, w)
  | fuel + 1, y, fail, w =>
    let w := (tm1651SetClk P undriven w false).delayUs (cycle / 4)
    let w := (tm1651SetDat P undriven w (decide (y &&& 1 ≠ 0))).delayUs (cycle / 8)
    -- behind the eight data bits: DAT is read, and then driven LOW
    let r := if y = 1 then (w.line.dat, tm1651SetDat P undriven w false) else (fail, w)
    let w := r.2.delayUs (cycle / 8)
    let w := (tm1651SetClk P undriven w true).delayUs (cycle / 2)
    if y >>> 1 ≠ 0 then writeLoop fuel (y >>> 1) r.1 w else (r.1, w)

/-- `tm1651_write`. -/
def tm1651Write (w : Wire σ) (x : BitVec 8) : Bool × Wire σ :=
  writeLoop P undriven 16 (x.setWidth 16 ||| 0x100) false w

/-- `tm1651_start`. -/
def tm1651Start (w : Wire σ) : Wire σ :=
  let w := (tm1651SetClk P undriven w false).delayUs (cycle / 2)
  let w := (tm1651SetClk P undriven w true).delayUs (cycle / 4)
  (tm1651SetDat P undriven w false).delayUs (cycle / 4)

/-- `tm1651_stop`. -/
def tm1651Stop (w : Wire σ) : Wire σ :=
  let w := (tm1651SetClk P undriven w false).delayUs (cycle / 2)
  let w := (tm1651SetClk P undriven w true).delayUs (cycle / 4)
  (tm1651SetDat P undriven w true).delayUs (cycle / 4)

/-- `tm1651_write(x) || tm1651_write(x') || ...`. -/
def writeAll : List (BitVec 8) → Wire σ → Bool × Wire σ
  | [], w => (false, w)
  | x :: xs, w =>
    let r := tm1651Write P undriven w x
    if r.1 then (true, r.2) else writeAll xs r.2

/-- The loop that `tm1651_send_cmd` and `tm1651_update_display` share, with `n` tries left. -/
def tryLoop (xs : List (BitVec 8)) : Nat → Wire σ → Bool × Wire σ
  | 0, w => (true, w)
  | n + 1, w =>
    let r := writeAll P undriven xs (tm1651Start P undriven w)
    let w := tm1651Stop P undriven r.2
    if r.1 then tryLoop xs n w else (r.1, w)

/-- `tm1651_send_cmd`. -/
def tm1651SendCmd (w : Wire σ) (cmd : BitVec 8) : Bool × Wire σ := tryLoop P undriven [cmd] 3 w

/-- `tm1651_update_display`, with the flag that it ends with. -/
def tm1651UpdateDisplay (w : Wire σ) (d : Nat → BitVec 8) : Bool × Wire σ :=
  tryLoop P undriven [0xc0, d 0, d 1, d 2, 0x00] 3 w

/-- `tm1651_init`. -/
def tm1651Init (w : Wire σ) : Bool × Wire σ :=
  let w := tm1651SetDat P undriven w true
  let w := tm1651SetClk P undriven w true
  tm1651SendCmd P undriven w 0x40

end Driver

/-! ## Setting a line -/

namespace Wire

variable (P : Peripheral σ) (w : Wire σ)

theorem change_same (g g' : Gpio) (l : Line) :
    (w.change P g w.drive).change P g' l = w.change P g' l := by
  have hsame : w.change P g w.drive = { w with gpiob := g } := by
    rw [change, show w.line = lineOf w.drive w.recv from rfl, Receiver.sees_self, if_pos rfl,
      if_pos rfl]
  rw [hsame]
  rfl

theorem change_change (g g' : Gpio) (l : Line) :
    (w.change P g l).change P g' l = w.change P g' l := by
  obtain ⟨w', hw'⟩ : ∃ w', w' = w.change P g l := ⟨_, rfl⟩
  have hdrive : w'.drive = l := by rw [hw']; rfl
  rw [← hw', change, show w'.line = lineOf w'.drive w'.recv from rfl, hdrive,
    Receiver.sees_self, if_pos rfl, if_pos rfl, hw']
  rfl

end Wire

/-- A pin that gives its line a level. -/
def Gives (g : Gpio) (pin : Nat) (level : Bool) : Prop :=
  g.mode pin = (if level then 0x8 else 0x6) ∧ g.out pin = level

/-- The mode that `tm1651_set_pin` gives a pin. -/
def levelMode (level : Bool) : BitVec 32 :=
  if level then Gpio.inPullUp else Gpio.outOpendrain 2 0

/-- Lines that the pins give these levels. -/
structure Holds (w : Wire σ) (clk dat : Bool) : Prop where
  clk_pin : Gives w.gpiob clkPin clk
  dat_pin : Gives w.gpiob datPin dat
  drive : w.drive = ⟨clk, dat⟩

theorem Gives.pinLevel {g : Gpio} {pin : Nat} {level : Bool} (h : Gives g pin level)
    (undriven : Bool) : pinLevel g pin undriven = level := by
  obtain ⟨hmode, hout⟩ := h
  rw [Led.pinLevel, hmode, hout]
  cases level <;> rfl

theorem out_levelMode (level : Bool) : decide (levelMode level >>> 4 ≠ 0) = level := by
  cases level <;> rfl

section SetPin

variable {g : Gpio} {pin p : Nat} {level : Bool}

theorem gives_configurePin (g : Gpio) (hpin : pin < 16) (level : Bool) :
    Gives (g.configurePin pin (levelMode level)) pin level := by
  rw [Gives, Gpio.configurePin_mode g hpin _ hpin, if_pos rfl,
    Gpio.configurePin_out g hpin _ hpin, if_pos rfl, out_levelMode]
  cases level <;> exact ⟨rfl, rfl⟩

theorem Gives.configurePin_other (h : Gives g p level) (hpin : pin < 16) (hp : p < 16)
    (hne : p ≠ pin) (mode : BitVec 32) : Gives (g.configurePin pin mode) p level := by
  obtain ⟨hmode, hout⟩ := Gpio.configurePin_other (g := g) hpin mode hp hne
  exact ⟨hmode.trans h.1, hout.trans h.2⟩

/-- The store to the output bit does not touch the other pin. -/
theorem Gives.writePin_other (h : Gives g p level) (hpin : pin < 16) (hp : p < 16)
    (hne : p ≠ pin) (value : BitVec 32) : Gives (g.writePin pin value) p level :=
  ⟨(Gpio.mode_writePin g pin value p).trans h.1,
    by rw [Gpio.out_writePin g hpin value hp, if_neg hne]; exact h.2⟩

/-- Behind the store to the output bit, the line has its old level or its new one. -/
theorem Gives.pinLevel_writePin (h : Gives g pin level) (hpin : pin < 16) (level' : Bool)
    (undriven : Bool) :
    Led.pinLevel (g.writePin pin (levelMode level' >>> 4)) pin undriven = level ∨
      Led.pinLevel (g.writePin pin (levelMode level' >>> 4)) pin undriven = level' := by
  by_cases hsame : level' = level
  · subst hsame
    refine .inl (Gives.pinLevel ⟨(Gpio.mode_writePin _ _ _ _).trans h.1, ?_⟩ undriven)
    rw [Gpio.out_writePin g hpin _ hpin, if_pos rfl, out_levelMode]
  · generalize Led.pinLevel _ pin undriven = x
    revert hsame
    cases level <;> cases level' <;> cases x <;> decide

end SetPin

section SetLine

variable (P : Peripheral σ) (undriven : Wire σ → Bool) {w : Wire σ} {c d : Bool}

/-- Two stores, the first of which leaves the old levels or the new ones, are one change. -/
theorem configure_eq {pin : Nat} {mode : BitVec 32} {l : Line}
    (hmid : (w.store P undriven (w.gpiob.writePin pin (mode >>> 4))).drive = w.drive ∨
      (w.store P undriven (w.gpiob.writePin pin (mode >>> 4))).drive = l)
    (hend : ∀ x, (⟨pinLevel (w.gpiob.configurePin pin mode) clkPin x,
      pinLevel (w.gpiob.configurePin pin mode) datPin x⟩ : Line) = l) :
    configure P undriven w pin mode = w.change P (w.gpiob.configurePin pin mode) l := by
  obtain ⟨w₁, hw₁⟩ : ∃ w₁, w₁ = w.store P undriven (w.gpiob.writePin pin (mode >>> 4)) := ⟨_, rfl⟩
  have hchange : w₁ = w.change P (w.gpiob.writePin pin (mode >>> 4)) w₁.drive := by
    rw [hw₁]
    rfl
  have hconf : configure P undriven w pin mode =
      w₁.change P (w.gpiob.configurePin pin mode) l := by
    rw [← hend (undriven w₁), hw₁]
    rfl
  rw [hconf, hchange]
  rw [← hw₁] at hmid
  rcases hmid with hold | hnew
  · rw [hold, Wire.change_same]
  · rw [hnew, Wire.change_change]

theorem tm1651SetPin_eq (pin : Nat) (level : Bool) :
    tm1651SetPin P undriven w pin level = configure P undriven w pin (levelMode level) := by
  rw [tm1651SetPin, levelMode]
  split_ifs <;> rfl

/-- **Setting CLK** changes one line, once. -/
theorem Holds.setClk (h : Holds w c d) (c' : Bool) :
    ∃ g, tm1651SetClk P undriven w c' = w.change P g ⟨c', d⟩ ∧
      Holds (tm1651SetClk P undriven w c') c' d := by
  have hclk := gives_configurePin w.gpiob (show clkPin < 16 by decide) c'
  have hdat := h.dat_pin.configurePin_other (show clkPin < 16 by decide) (by decide) (by decide)
    (levelMode c')
  have hdat' := (h.dat_pin.writePin_other (show clkPin < 16 by decide) (by decide) (by decide)
    (levelMode c' >>> 4)).pinLevel (undriven w)
  have heq : tm1651SetClk P undriven w c' =
      w.change P (w.gpiob.configurePin clkPin (levelMode c')) ⟨c', d⟩ := by
    rw [tm1651SetClk, tm1651SetPin_eq]
    refine configure_eq P undriven ?_ fun x => by rw [hclk.pinLevel, hdat.pinLevel]
    rw [h.drive, Wire.store, Wire.change, hdat']
    exact (h.clk_pin.pinLevel_writePin (by decide) c' (undriven w)).imp
      (fun hlevel => by rw [hlevel]) fun hlevel => by rw [hlevel]
  exact ⟨_, heq, by rw [heq]; exact ⟨hclk, hdat, rfl⟩⟩

/-- **Setting DAT** changes one line, once. -/
theorem Holds.setDat (h : Holds w c d) (d' : Bool) :
    ∃ g, tm1651SetDat P undriven w d' = w.change P g ⟨c, d'⟩ ∧
      Holds (tm1651SetDat P undriven w d') c d' := by
  have hdat := gives_configurePin w.gpiob (show datPin < 16 by decide) d'
  have hclk := h.clk_pin.configurePin_other (show datPin < 16 by decide) (by decide) (by decide)
    (levelMode d')
  have hclk' := (h.clk_pin.writePin_other (show datPin < 16 by decide) (by decide) (by decide)
    (levelMode d' >>> 4)).pinLevel (undriven w)
  have heq : tm1651SetDat P undriven w d' =
      w.change P (w.gpiob.configurePin datPin (levelMode d')) ⟨c, d'⟩ := by
    rw [tm1651SetDat, tm1651SetPin_eq]
    refine configure_eq P undriven ?_ fun x => by rw [hclk.pinLevel, hdat.pinLevel]
    rw [h.drive, Wire.store, Wire.change, hclk']
    exact (h.dat_pin.pinLevel_writePin (by decide) d' (undriven w)).imp
      (fun hlevel => by rw [hlevel]) fun hlevel => by rw [hlevel]
  exact ⟨_, heq, by rw [heq]; exact ⟨hclk, hdat, rfl⟩⟩

end SetLine

/-! ## Edges -/

/-- Lines at these levels, with the receiver in state `r`.  CLK has kept its level for `a`
microseconds, DAT for `b`; so far CLK changed every four microseconds at most, and DAT and
CLK never within one. -/
structure At (w : Wire σ) (r : Receiver σ) (clk dat : Bool) (a b : Nat) : Prop
    extends Holds w clk dat where
  recv : w.recv = r
  clk_ago : ∀ t ∈ w.clkEdges, t + a ≤ w.now
  dat_ago : ∀ t ∈ w.datEdges, t + b ≤ w.now
  spaced : w.clkEdges.Pairwise fun t t' => t' + 4 ≤ t
  apart : ∀ t ∈ w.clkEdges, ∀ t' ∈ w.datEdges, t + 1 ≤ t' ∨ t' + 1 ≤ t

namespace At

variable (P : Peripheral σ) (undriven : Wire σ → Bool) {w : Wire σ} {r : Receiver σ}
  {c d : Bool} {a b : Nat}

/-- `us` microseconds later, of which `e` and `f` are all that matters. -/
theorem delay (h : At w r c d a b) (us : Nat) {e f : Nat} (he : e ≤ a + us)
    (hf : f ≤ b + us) : At (w.delayUs us) r c d e f where
  clk_pin := h.clk_pin
  dat_pin := h.dat_pin
  drive := h.drive
  recv := h.recv
  clk_ago := fun t ht => by
    have hago := h.clk_ago t ht
    show t + e ≤ w.now + us
    omega
  dat_ago := fun t ht => by
    have hago := h.dat_ago t ht
    show t + f ≤ w.now + us
    omega
  spaced := h.spaced
  apart := h.apart

/-- An edge of CLK. -/
theorem setClk (h : At w r c d a b) (ha : 4 ≤ a) (hb : 1 ≤ b) :
    At (tm1651SetClk P undriven w !c) (r.sees P (lineOf ⟨c, d⟩ r) (lineOf ⟨!c, d⟩ r))
      (!c) d 0 b := by
  obtain ⟨g, heq, hholds⟩ := h.toHolds.setClk P undriven (!c)
  have hclk : (tm1651SetClk P undriven w !c).clkEdges = w.now :: w.clkEdges := by
    rw [heq, Wire.change, h.drive]
    exact if_neg (Bool.not_ne_self c)
  have hdat : (tm1651SetClk P undriven w !c).datEdges = w.datEdges := by
    rw [heq, Wire.change, h.drive]
    exact if_pos rfl
  have hnow : (tm1651SetClk P undriven w !c).now = w.now := by
    rw [heq]
    rfl
  refine ⟨hholds, by rw [heq, Wire.change, Wire.line, h.drive, h.recv], ?_, ?_, ?_, ?_⟩
  · rw [hclk, hnow]
    intro t ht
    rcases List.mem_cons.mp ht with rfl | ht
    · exact le_rfl
    · have hago := h.clk_ago t ht
      omega
  · rw [hdat, hnow]
    exact h.dat_ago
  · rw [hclk, List.pairwise_cons]
    refine ⟨fun t ht => ?_, h.spaced⟩
    have hago := h.clk_ago t ht
    omega
  · rw [hclk, hdat]
    intro t ht t' ht'
    rcases List.mem_cons.mp ht with rfl | ht
    · have hago := h.dat_ago t' ht'
      omega
    · exact h.apart t ht t' ht'

/-- DAT is set, away from the edges of CLK. -/
theorem setDat (h : At w r c d a b) (ha : 1 ≤ a) (d' : Bool) :
    At (tm1651SetDat P undriven w d') (r.sees P (lineOf ⟨c, d⟩ r) (lineOf ⟨c, d'⟩ r))
      c d' a 0 := by
  obtain ⟨g, heq, hholds⟩ := h.toHolds.setDat P undriven d'
  have hclk : (tm1651SetDat P undriven w d').clkEdges = w.clkEdges := by
    rw [heq, Wire.change, h.drive]
    exact if_pos rfl
  have hdat : ∀ t ∈ (tm1651SetDat P undriven w d').datEdges, t = w.now ∨ t ∈ w.datEdges := by
    rw [heq, Wire.change, h.drive]
    intro t ht
    have ht : t ∈ if d' = d then w.datEdges else w.now :: w.datEdges := ht
    split_ifs at ht
    · exact .inr ht
    · exact List.mem_cons.mp ht
  have hnow : (tm1651SetDat P undriven w d').now = w.now := by
    rw [heq]
    rfl
  refine ⟨hholds, by rw [heq, Wire.change, Wire.line, h.drive, h.recv], ?_, ?_, ?_, ?_⟩
  · rw [hclk, hnow]
    exact h.clk_ago
  · rw [hnow]
    intro t ht
    rcases hdat t ht with rfl | ht
    · exact le_rfl
    · have hago := h.dat_ago t ht
      omega
  · rw [hclk]
    exact h.spaced
  · rw [hclk]
    intro t ht t' ht'
    rcases hdat t' ht' with rfl | ht'
    · have hago := h.clk_ago t ht
      omega
    · exact h.apart t ht t' ht'

/-- `gpio_read_pin(gpiob, DAT_PIN)`. -/
theorem line_dat (h : At w r c d a b) : w.line.dat = (d && !r.pulls) := by
  rw [Wire.line, h.drive, h.recv]
  rfl

/-- CLK falls. -/
theorem low (h : At w r true d a b) (ha : 4 ≤ a) (hb : 1 ≤ b) :
    At (tm1651SetClk P undriven w false) (r.fall P) false d 0 b :=
  h.setClk P undriven ha hb

/-- CLK rises. -/
theorem high (h : At w r false d a b) (ha : 4 ≤ a) (hb : 1 ≤ b) :
    At (tm1651SetClk P undriven w true) (r.rise (d && !r.pulls)) true d 0 b :=
  h.setClk P undriven ha hb

/-- DAT is set while CLK is low. -/
theorem datLow (h : At w r false d a b) (ha : 1 ≤ a) (d' : Bool) :
    At (tm1651SetDat P undriven w d') r false d' a 0 :=
  h.setDat P undriven ha d'

end At

/-! ## Start and stop -/

section Frame

variable (P : Peripheral σ) (undriven : Wire σ → Bool) {w : Wire σ} {s : σ}

/-- **`tm1651_start`** begins a transfer. -/
theorem tm1651Start_spec (h : At w ⟨.idle, s⟩ true true 4 1) :
    At (tm1651Start P undriven w) ⟨.bits [], P.start s⟩ true false 4 1 := by
  have h₁ := (h.low P undriven le_rfl le_rfl).delay (cycle / 2) (e := 4) (f := 1)
    (by decide) (by decide)
  have h₂ := (h₁.high P undriven le_rfl le_rfl).delay (cycle / 4) (e := 2) (f := 1)
    (by decide) (by decide)
  exact (h₂.setDat P undriven (by decide) false).delay (cycle / 4) (by decide) (by decide)

/-- **`tm1651_stop`** ends a transfer, behind a byte.  The edge of CLK in front of the stop
is taken for a bit. -/
theorem tm1651Stop_spec {a : Bool} (h : At w ⟨.answer a, s⟩ true false 4 1) :
    At (tm1651Stop P undriven w) ⟨.idle, P.stop s⟩ true true 4 1 := by
  have h₁ := (h.low P undriven le_rfl le_rfl).delay (cycle / 2) (e := 4) (f := 1)
    (by decide) (by decide)
  have h₂ := (h₁.high P undriven le_rfl le_rfl).delay (cycle / 4) (e := 2) (f := 1)
    (by decide) (by decide)
  exact (h₂.setDat P undriven (by decide) true).delay (cycle / 4) (by decide) (by decide)

/-! ## Writing a byte -/

/-- One turn of the loop of `tm1651_write`: the flag, and the lines behind it. -/
def writeTurn (y : BitVec 16) (fail : Bool) (w : Wire σ) : Bool × Wire σ :=
  let w := (tm1651SetClk P undriven w false).delayUs (cycle / 4)
  let w := (tm1651SetDat P undriven w (decide (y &&& 1 ≠ 0))).delayUs (cycle / 8)
  let r := if y = 1 then (w.line.dat, tm1651SetDat P undriven w false) else (fail, w)
  let w := r.2.delayUs (cycle / 8)
  (r.1, (tm1651SetClk P undriven w true).delayUs (cycle / 2))

theorem writeLoop_succ (fuel : Nat) (y : BitVec 16) (fail : Bool) (w : Wire σ) :
    writeLoop P undriven (fuel + 1) y fail w =
      if y >>> 1 ≠ 0 then
        writeLoop P undriven fuel (y >>> 1) (writeTurn P undriven y fail w).1
          (writeTurn P undriven y fail w).2
      else writeTurn P undriven y fail w := rfl

/-- A turn that sends a data bit behind the bits `l`. -/
theorem writeTurn_bit {r : Receiver σ} {d : Bool} (h : At w r true d 4 1) {l : List Bool}
    (hr : r.fall P = ⟨.bits l, s⟩) {y : BitVec 16} (hy : y ≠ 1) (fail : Bool) :
    (writeTurn P undriven y fail w).1 = fail ∧
      At (writeTurn P undriven y fail w).2 ⟨.bits (l ++ [decide (y &&& 1 ≠ 0)]), s⟩ true
        (decide (y &&& 1 ≠ 0)) 4 1 := by
  obtain ⟨b, hb⟩ : ∃ b, b = decide (y &&& 1 ≠ 0) := ⟨_, rfl⟩
  have h₁ := (h.low P undriven le_rfl le_rfl).delay (cycle / 4) (e := 2) (f := 0)
    (by decide) (by decide)
  have h₂ := ((h₁.datLow P undriven (by decide) b).delay (cycle / 8) (e := 3) (f := 1)
    (by decide) (by decide)).delay (cycle / 8) (e := 4) (f := 1) (by decide) (by decide)
  have h₃ := (h₂.high P undriven le_rfl le_rfl).delay (cycle / 2) (e := 4) (f := 1)
    (by decide) (by decide)
  have hbit : (r.fall P).rise (b && !(r.fall P).pulls) = ⟨.bits (l ++ [b]), s⟩ := by
    rw [hr]
    show Receiver.mk (.bits (l ++ [b && true])) s = _
    rw [Bool.and_true]
  rw [hbit] at h₃
  rw [writeTurn, ← hb, if_neg hy]
  exact ⟨rfl, h₃⟩

/-- The turn behind the data bits: the answer of the controller. -/
theorem writeTurn_answer {d : Bool} {x : BitVec 8}
    (h : At w ⟨.bits (bitsLsb x), s⟩ true d 4 1) (fail : Bool) :
    (writeTurn P undriven 1 fail w).1 = !(P.byte s x).2 ∧
      At (writeTurn P undriven 1 fail w).2 ⟨.answer (P.byte s x).2, (P.byte s x).1⟩ true false
        4 1 := by
  obtain ⟨a, ha⟩ : ∃ a, a = (P.byte s x).2 := ⟨_, rfl⟩
  obtain ⟨s', hs'⟩ : ∃ s', s' = (P.byte s x).1 := ⟨_, rfl⟩
  have hanswer : (Receiver.mk (.bits (bitsLsb x)) s).fall P = ⟨.answer a, s'⟩ := by
    rw [ha, hs', Receiver.fall]
    exact (if_pos rfl).trans (by rw [ofBitsLsb_bitsLsb])
  have h₀ := h.low P undriven le_rfl le_rfl
  rw [hanswer] at h₀
  have h₁ := h₀.delay (cycle / 4) (e := 2) (f := 0) (by decide) (by decide)
  have h₂ := (h₁.datLow P undriven (by decide) true).delay (cycle / 8) (e := 3) (f := 1)
    (by decide) (by decide)
  have h₃ := (h₂.datLow P undriven (by decide) false).delay (cycle / 8) (e := 4) (f := 1)
    (by decide) (by decide)
  have h₄ := (h₃.high P undriven le_rfl le_rfl).delay (cycle / 2) (e := 4) (f := 1)
    (by decide) (by decide)
  rw [← ha, ← hs', writeTurn, if_pos rfl]
  exact ⟨h₂.line_dat, h₄⟩

/-- What is left to send behind `k` bits: the other ones, and a stop bit. -/
def leftBits (x : BitVec 8) (k : Nat) : BitVec 16 := (x.setWidth 16 ||| 0x100) >>> k

theorem getLsbD_leftBits (x : BitVec 8) (k i : Nat) :
    (leftBits x k).getLsbD i = if k + i < 8 then x.getLsbD (k + i) else decide (k + i = 8) := by
  have hstop : (0x100 : BitVec 16).getLsbD (k + i) = decide (k + i = 8) := by
    have htwo := BitVec.getLsbD_twoPow 8 (w := 16) (k + i)
    rw [show BitVec.twoPow 16 8 = 0x100 from rfl] at htwo
    rw [htwo, decide_eq_true (show 8 < 16 by decide), Bool.true_and]
    exact decide_eq_decide.mpr eq_comm
  rw [leftBits, BitVec.getLsbD_ushiftRight, BitVec.getLsbD_or, BitVec.getLsbD_setWidth, hstop]
  split_ifs with hlt
  · rw [decide_eq_true (show k + i < 16 by omega), decide_eq_false (show ¬ k + i = 8 by omega),
      Bool.true_and, Bool.or_false]
  · rw [BitVec.getLsbD_of_ge x (k + i) (by omega), Bool.and_false, Bool.false_or]

theorem leftBits_succ (x : BitVec 8) (k : Nat) : leftBits x k >>> 1 = leftBits x (k + 1) := by
  rw [leftBits, leftBits, BitVec.shiftRight_add]

theorem leftBits_eight (x : BitVec 8) : leftBits x 8 = 1 := by
  apply BitVec.eq_of_getLsbD_eq
  intro i _
  rw [getLsbD_leftBits, if_neg (by omega)]
  cases i with
  | zero => rfl
  | succ i => simp [BitVec.getLsbD_one]

/-- The stop bit is there until it is the only one. -/
theorem leftBits_ne (x : BitVec 8) {k : Nat} (hk : k < 8) :
    leftBits x k ≠ 1 ∧ leftBits x k >>> 1 ≠ 0 := by
  have hstop : (leftBits x k).getLsbD (8 - k) = true := by
    rw [getLsbD_leftBits, if_neg (by omega), decide_eq_true (by omega)]
  have hnext : (leftBits x k >>> 1).getLsbD (7 - k) = true := by
    rw [BitVec.getLsbD_ushiftRight, show 1 + (7 - k) = 8 - k by omega]
    exact hstop
  refine ⟨fun heq => ?_, fun heq => ?_⟩
  · obtain ⟨j, hj⟩ : ∃ j, 8 - k = j + 1 := ⟨7 - k, by omega⟩
    rw [heq, hj] at hstop
    simp [BitVec.getLsbD_one] at hstop
  · rw [heq] at hnext
    simp at hnext

theorem leftBits_and_one (x : BitVec 8) {k : Nat} (hk : k < 8) :
    decide (leftBits x k &&& 1 ≠ 0) = x.getLsbD k := by
  have hbit := getLsbD_leftBits x k 0
  rw [Nat.add_zero, if_pos hk] at hbit
  rw [← hbit]
  exact Bool.eq_iff_iff.mpr ((decide_eq_true_iff).trans (and_one_ne_zero (leftBits x k)))

/-- **The loop of `tm1651_write`**, behind `k` bits. -/
theorem writeLoop_spec (x : BitVec 8) {k : Nat} (hk : k ≤ 8) {fuel : Nat} (hfuel : 8 - k < fuel)
    (fail : Bool) {r : Receiver σ} {d : Bool} (h : At w r true d 4 1)
    (hr : (if k < 8 then r.fall P else r) = ⟨.bits ((bitsLsb x).take k), s⟩) :
    (writeLoop P undriven fuel (leftBits x k) fail w).1 = !(P.byte s x).2 ∧
      At (writeLoop P undriven fuel (leftBits x k) fail w).2
        ⟨.answer (P.byte s x).2, (P.byte s x).1⟩ true false 4 1 := by
  obtain ⟨n, hn⟩ : ∃ n, n = 8 - k := ⟨_, rfl⟩
  induction n generalizing k fuel w r d fail with
  | zero =>
    obtain rfl : k = 8 := by omega
    obtain ⟨fuel, rfl⟩ : ∃ f, fuel = f + 1 := ⟨fuel - 1, by omega⟩
    rw [if_neg (by decide)] at hr
    subst hr
    rw [writeLoop_succ, leftBits_eight, if_neg (by decide)]
    exact writeTurn_answer P undriven h fail
  | succ n ih =>
    obtain ⟨fuel, rfl⟩ : ∃ f, fuel = f + 1 := ⟨fuel - 1, by omega⟩
    have hlt : k < 8 := by omega
    obtain ⟨hone, hmore⟩ := leftBits_ne x hlt
    rw [if_pos hlt] at hr
    obtain ⟨hflag, hat⟩ := writeTurn_bit P undriven h hr hone fail
    rw [leftBits_and_one x hlt] at hat
    rw [writeLoop_succ, if_pos hmore, hflag, leftBits_succ]
    refine ih (by omega) (by omega) fail hat ?_ (by omega)
    have htake : (bitsLsb x).take k ++ [x.getLsbD k] = (bitsLsb x).take (k + 1) := by
      have hlen : k < (bitsLsb x).length := hlt
      rw [List.take_add_one, List.getElem?_eq_getElem hlen]
      simp [bitsLsb]
    rw [htake]
    split_ifs with hnext
    · refine if_neg ?_
      rw [List.length_take]
      omega
    · rfl

/-- **`tm1651_write`** sends one byte, and returns whether it was not acknowledged. -/
theorem tm1651Write_spec (x : BitVec 8) {r : Receiver σ} {d : Bool} (h : At w r true d 4 1)
    (hr : r.fall P = ⟨.bits [], s⟩) :
    (tm1651Write P undriven w x).1 = !(P.byte s x).2 ∧
      At (tm1651Write P undriven w x).2 ⟨.answer (P.byte s x).2, (P.byte s x).1⟩ true false
        4 1 :=
  writeLoop_spec P undriven x (k := 0) (by decide) (by decide) false h hr

/-! ## Transfers -/

/-- Bytes, up to the first that is not acknowledged. -/
theorem writeAll_spec {xs : List (BitVec 8)} (hne : xs ≠ []) {r : Receiver σ} {d : Bool}
    (h : At w r true d 4 1) (hr : r.fall P = ⟨.bits [], s⟩) :
    (writeAll P undriven xs w).1 = (P.bytes xs s).2 ∧
      ∃ a, At (writeAll P undriven xs w).2 ⟨.answer a, (P.bytes xs s).1⟩ true false 4 1 := by
  induction xs generalizing w r d s with
  | nil => exact absurd rfl hne
  | cons x xs ih =>
    obtain ⟨hflag, hat⟩ := tm1651Write_spec P undriven x h hr
    rw [writeAll, Peripheral.bytes, hflag]
    cases hack : (P.byte s x).2 with
    | false => exact ⟨rfl, _, hat⟩
    | true =>
      rw [if_neg (by decide), if_pos rfl]
      cases xs with
      | nil => exact ⟨rfl, _, hat⟩
      | cons x' xs => exact ih (List.cons_ne_nil _ _) hat rfl

/-- **The tries** do to the controller what as many transfers of whole bytes would do. -/
theorem tryLoop_spec {xs : List (BitVec 8)} (hne : xs ≠ []) (n : Nat)
    (h : At w ⟨.idle, s⟩ true true 4 1) :
    (tryLoop P undriven xs n w).1 = (P.tries xs n s).2 ∧
      At (tryLoop P undriven xs n w).2 ⟨.idle, (P.tries xs n s).1⟩ true true 4 1 := by
  induction n generalizing w s with
  | zero => exact ⟨rfl, h⟩
  | succ n ih =>
    have hstart := tm1651Start_spec P undriven h
    obtain ⟨hflag, a, hbytes⟩ := writeAll_spec P undriven hne hstart rfl
    have hflag : _ = (P.frame xs s).2 := hflag
    have hstop := tm1651Stop_spec P undriven hbytes
    rw [tryLoop, Peripheral.tries, hflag]
    by_cases hfail : (P.frame xs s).2 = true
    · rw [if_pos hfail, if_pos hfail]
      exact ih hstop
    · rw [if_neg hfail, if_neg hfail]
      exact ⟨rfl, hstop⟩

/-- A port with both lines pulled up, and nothing sent yet. -/
theorem At.ofPulledUp {g : Gpio} (hclk : g.PulledUp clkPin) (hdat : g.PulledUp datPin)
    (r : Receiver σ) (now : Nat) : At ⟨g, ⟨true, true⟩, r, now, [], []⟩ r true true 4 1 where
  clk_pin := hclk
  dat_pin := hdat
  drive := rfl
  recv := rfl
  clk_ago := fun _ ht => absurd ht List.not_mem_nil
  dat_ago := fun _ ht => absurd ht List.not_mem_nil
  spaced := List.Pairwise.nil
  apart := fun _ ht => absurd ht List.not_mem_nil

/-- Lines that are HIGH are set to HIGH. -/
theorem At.setHigh {r : Receiver σ} {a b : Nat} (h : At w r true true a b) :
    At (tm1651SetClk P undriven (tm1651SetDat P undriven w true) true) r true true a b := by
  have hsame : ∀ {w : Wire σ} {g : Gpio}, At w r true true a b →
      Holds (w.change P g ⟨true, true⟩) true true →
        At (w.change P g ⟨true, true⟩) r true true a b := by
    intro w g h hholds
    have hline : w.line = lineOf ⟨true, true⟩ w.recv := by rw [Wire.line, h.drive]
    refine ⟨hholds, ?_, ?_, ?_, ?_, ?_⟩
    · rw [Wire.change, hline, Receiver.sees_self, h.recv]
    · rw [Wire.change, h.drive]
      exact h.clk_ago
    · rw [Wire.change, h.drive]
      exact h.dat_ago
    · rw [Wire.change, h.drive]
      exact h.spaced
    · rw [Wire.change, h.drive]
      exact h.apart
  obtain ⟨g, heq, hholds⟩ := h.toHolds.setDat P undriven true
  obtain ⟨g', heq', hholds'⟩ := hholds.setClk P undriven true
  rw [heq'] at hholds' ⊢
  rw [heq] at hholds hholds' ⊢
  exact hsame (hsame h hholds) hholds'

/-- **`tm1651_init`** sends the data command. -/
theorem tm1651Init_spec (h : At w ⟨.idle, s⟩ true true 4 1) :
    (tm1651Init P undriven w).1 = (P.tries [0x40] 3 s).2 ∧
      At (tm1651Init P undriven w).2 ⟨.idle, (P.tries [0x40] 3 s).1⟩ true true 4 1 :=
  tryLoop_spec P undriven (List.cons_ne_nil _ _) 3 (h.setHigh P undriven)

end Frame

end FlashFloppyTestbed.Led
