/-
  Pins.lean --- the port pins over a run of the program: `src/gotek/board.c`,
  `src/gotek/floppy.c`, and whatever else writes to a pin.

  The console, the board and the floppy interface are set up one behind the other.
  After that the program moves its outputs, gives WDATA to its timer and takes it back,
  and drives the two pins of the display (`PinOp`).  Eight pins share a register, and
  all of them a store to `bsrr`; what is meant is a line for each pin (`Lines`), and the
  registers show the lines, whatever they held at first (`shows_foldl`).

  What the functions of `src/floppy.c` and `src/floppy_generic.c` do to the lines is
  safe at every moment (`pins_safe`): two drives are never selected at once, and the
  write gate is open only while the timer has WDATA and the heads stay.
-/
import FlashFloppyTestbed.Foundation.Run
import FlashFloppyTestbed.Led.Tm1651
import Mathlib.Tactic.IntervalCases

set_option autoImplicit false

namespace FlashFloppyTestbed

open FlashFloppyTestbed.Foundation

/-! ## Setting up -/

/-- `O_FALSE`. -/
def oFalse : BitVec 32 := 1

/-- `O_TRUE`. -/
def oTrue : BitVec 32 := 0

namespace Gpio

/-- `GPO_pushpull(speed, level)`. -/
def outPushpull (speed level : BitVec 32) : BitVec 32 := 0x0 ||| speed ||| (level <<< 4)

/-- `AFO_pushpull(speed)`. -/
def altPushpull (speed : BitVec 32) : BitVec 32 := 0x8 ||| speed

end Gpio

/-- `GPI_bus`. -/
def gpiBus : BitVec 32 := Gpio.inFloating

/-- `GPO_bus`. -/
def gpoBus : BitVec 32 := Gpio.outPushpull 2 oFalse

/-- `AFO_bus`. -/
def afoBus : BitVec 32 := Gpio.altPushpull 2 ||| (oFalse <<< 4)

/-- `console_init`, as far as pins are concerned. -/
def consoleInitPins (s : Ports) : Ports :=
  let s := { s with a := s.a.configurePin 9 (Gpio.altPushpull 1) }
  { s with a := s.a.configurePin 10 Gpio.inPullUp }

/-- `board_floppy_init`, as far as pins are concerned. -/
def boardFloppyInit (s : Ports) : Ports :=
  -- inputs
  let s := { s with b := s.b.configurePin 0 gpiBus }
  let s := { s with a := s.a.configurePin 1 gpiBus }
  let s := { s with a := s.a.configurePin 0 gpiBus }
  let s := { s with b := s.b.configurePin 9 gpiBus }
  let s := { s with b := s.b.configurePin 4 gpiBus }
  -- outputs, buffered
  let s := { s with b := s.b.configurePin 7 gpoBus }
  let s := { s with b := s.b.configurePin 8 gpoBus }
  let s := { s with b := s.b.configurePin 6 gpoBus }
  let s := { s with b := s.b.configurePin 5 gpoBus }
  let s := { s with b := s.b.configurePin 3 gpoBus }
  -- outputs, unbuffered
  let s := { s with a := s.a.configurePin 2 (Gpio.outOpendrain 2 oFalse) }
  { s with b := s.b.configurePin 1 (Gpio.outOpendrain 2 oFalse) }

/-- `floppy_init`, up to where it has set up its pins. -/
def floppyInitPins (s : Ports) : Ports :=
  let s := boardFloppyInit s
  let s := { s with a := s.a.configurePin 8 gpiBus }
  { s with a := s.a.configurePin 7 gpoBus }

/-- `console_init`, `board_init` and `floppy_init`, in the order of `main`. -/
def initPins (s : Ports) : Ports := floppyInitPins (boardInit (consoleInitPins s))

/-! ## Moving the lines -/

/-- `set_dir(x)` and the like; WDATA to the timer or back; the pins of the display. -/
inductive PinOp where
  | dir (x : BitVec 32)
  | step (x : BitVec 32)
  | sel0 (x : BitVec 32)
  | wgate (x : BitVec 32)
  | side (x : BitVec 32)
  | sel1 (x : BitVec 32)
  | motor (x : BitVec 32)
  | wdata (mode : Bool)
  | dat (level : Bool)
  | clk (level : Bool)

def PinOp.run (s : Ports) : PinOp → Ports
  | .dir x => { s with b := s.b.writePin 7 x }
  | .step x => { s with b := s.b.writePin 8 x }
  | .sel0 x => { s with b := s.b.writePin 6 x }
  | .wgate x => { s with b := s.b.writePin 5 x }
  | .side x => { s with b := s.b.writePin 3 x }
  | .sel1 x => { s with a := s.a.writePin 2 x }
  | .motor x => { s with b := s.b.writePin 1 x }
  | .wdata timer => { s with a := s.a.configurePin 7 (if timer then afoBus else gpoBus) }
  | .dat level => { s with b := s.b.configurePin Led.datPin (Led.levelMode level) }
  | .clk level => { s with b := s.b.configurePin Led.clkPin (Led.levelMode level) }

/-- The functions, as far as they move lines.  `floppy_seek` is `setSide` and steps, and
`floppy_disk_change` is a seek, steps and `setMotor`. -/
inductive PinCall where
  | stepOneOut
  | stepOneIn
  | floppySelect (unit : BitVec 32)
  | setSide (side : BitVec 32)
  | setMotor (x : BitVec 32)
  | floppyWrite
  | setDat (level : Bool)
  | setClk (level : Bool)

def PinCall.ops : PinCall → List PinOp
  | .stepOneOut => [.dir oFalse, .step oTrue, .step oFalse]
  | .stepOneIn => [.dir oTrue, .step oTrue, .step oFalse]
  | .floppySelect unit =>
    if unit ≠ 0 then [.sel0 oFalse, .sel1 oTrue, .motor oTrue]
    else [.sel1 oFalse, .sel0 oTrue, .motor oTrue]
  | .setSide side => [.side (if side ≠ 0 then oTrue else oFalse)]
  | .setMotor x => [.motor x]
  | .floppyWrite => [.wdata true, .wgate oTrue, .wgate oFalse, .wdata false]
  | .setDat level => [.dat level]
  | .setClk level => [.clk level]

/-- All that is done to the lines: `floppy_init` looks for cylinder 0, and then the calls. -/
def pinOps (steps : Nat) (calls : List PinCall) : List PinOp :=
  .sel0 oTrue :: (List.replicate steps PinCall.stepOneOut).flatMap PinCall.ops ++
    .sel0 oFalse :: calls.flatMap PinCall.ops

/-! ## Lines -/

/-- What is meant: the levels of the outputs, whether the timer has WDATA, and the levels of
the lines of the display. -/
structure Lines where
  dir : Bool
  step : Bool
  sel0 : Bool
  wgate : Bool
  side : Bool
  sel1 : Bool
  motor : Bool
  wdata : Bool
  dat : Bool
  clk : Bool

namespace Lines

/-- Nothing is asserted, and the display is released. -/
def idle : Lines := ⟨true, true, true, true, true, true, true, false, true, true⟩

/-- The pins of port A: mode and output bit. -/
def a (l : Lines) : Nat → BitVec 4 × Bool
  | 0 | 1 | 8 => (0x4, false)
  | 2 => (0x6, l.sel1)
  | 7 => (if l.wdata then 0xa else 0x2, true)
  | 9 => (0x9, false)
  | 11 | 12 => (0x8, false)
  | _ => (0x8, true)

/-- The pins of port B. -/
def b (l : Lines) : Nat → BitVec 4 × Bool
  | 0 | 4 | 9 => (0x4, false)
  | 1 => (0x6, l.motor)
  | 3 => (0x2, l.side)
  | 5 => (0x2, l.wgate)
  | 6 => (0x2, l.sel0)
  | 7 => (0x2, l.dir)
  | 8 => (0x2, l.step)
  | 10 => if l.dat then (0x8, true) else (0x6, false)
  | 11 => if l.clk then (0x8, true) else (0x6, false)
  | _ => (0x8, true)

/-- What has to hold at every moment.  The lines are active LOW. -/
structure Safe (l : Lines) : Prop where
  one_drive : l.sel0 = true ∨ l.sel1 = true
  write_data : l.wgate = false → l.wdata = true
  write_still : l.wgate = false → l.step = true

/-- What holds where no function is under way. -/
structure Rest (l : Lines) : Prop where
  one_drive : l.sel0 = true ∨ l.sel1 = true
  step : l.step = true
  wgate : l.wgate = true
  wdata : l.wdata = false

end Lines

def PinOp.effect (l : Lines) : PinOp → Lines
  | .dir x => { l with dir := x ≠ 0 }
  | .step x => { l with step := x ≠ 0 }
  | .sel0 x => { l with sel0 := x ≠ 0 }
  | .wgate x => { l with wgate := x ≠ 0 }
  | .side x => { l with side := x ≠ 0 }
  | .sel1 x => { l with sel1 := x ≠ 0 }
  | .motor x => { l with motor := x ≠ 0 }
  | .wdata timer => { l with wdata := timer }
  | .dat level => { l with dat := level }
  | .clk level => { l with clk := level }

/-- The mode and the output bit of a pin. -/
def Gpio.pin (g : Gpio) (p : Nat) : BitVec 4 × Bool := (g.mode p, g.out p)

/-- The registers show the lines. -/
structure Ports.Shows (s : Ports) (l : Lines) : Prop where
  a : ∀ p < 16, s.a.pin p = l.a p
  b : ∀ p < 16, s.b.pin p = l.b p
  c : ∀ p < 16, s.c.pin p = (0x8, true)

/-! ## One pin at a time -/

namespace Gpio

variable (g : Gpio) {k p : Nat}

theorem pin_configurePin (hk : k < 16) (mode : BitVec 32) (hp : p < 16) :
    (g.configurePin k mode).pin p =
      if p = k then (mode.setWidth 4, decide (mode >>> 4 ≠ 0)) else g.pin p := by
  rw [Gpio.pin, configurePin_mode g hk mode hp, configurePin_out g hk mode hp]
  split_ifs <;> rfl

theorem pin_writePin (hk : k < 16) (x : BitVec 32) (hp : p < 16) :
    (g.writePin k x).pin p = if p = k then ((g.pin k).1, decide (x ≠ 0)) else g.pin p := by
  rw [Gpio.pin, mode_writePin, out_writePin g hk x hp]
  split_ifs with hsame
  · rw [hsame]
    rfl
  · rfl

theorem pin_of_pulledUp {g : Gpio} (h : g.PulledUp p) : g.pin p = (0x8, true) := Prod.ext h.1 h.2

theorem pin_of_pulledDown {g : Gpio} (h : g.PulledDown p) : g.pin p = (0x8, false) :=
  Prod.ext h.1 h.2

theorem pin_of_samePin {g g' : Gpio} (h : SamePin g g' p) : g'.pin p = g.pin p := Prod.ext h.1 h.2

end Gpio

/-! ## What is set up -/

section Init

variable (s : Ports) {p : Nat}

theorem pin_boardInit_a (hp : p < 16) : (boardInit s).a.pin p =
    if p = 11 ∨ p = 12 then (0x8, false) else if p ∈ paKept then s.a.pin p else (0x8, true) := by
  have h := boardInit_a s hp
  split_ifs at h ⊢
  · exact Gpio.pin_of_pulledDown h
  · exact Gpio.pin_of_samePin h
  · exact Gpio.pin_of_pulledUp h

theorem pin_boardInit_b (hp : p < 16) :
    (boardInit s).b.pin p = if p ∈ pbKept then s.b.pin p else (0x8, true) := by
  have h := boardInit_b s hp
  split_ifs at h ⊢
  · exact Gpio.pin_of_samePin h
  · exact Gpio.pin_of_pulledUp h

/-- **Every pin is set up**, whatever the registers held. -/
theorem initPins_shows : (initPins s).Shows Lines.idle where
  a := by
    intro p hp
    simp (disch := first | decide | exact hp) only [initPins, floppyInitPins, boardFloppyInit,
      consoleInitPins, Gpio.pin_configurePin, pin_boardInit_a]
    interval_cases p <;> rfl
  b := by
    intro p hp
    simp (disch := first | decide | exact hp) only [initPins, floppyInitPins, boardFloppyInit,
      consoleInitPins, Gpio.pin_configurePin, pin_boardInit_b]
    interval_cases p <;> rfl
  c := fun _ hp => Gpio.pin_of_pulledUp (boardInit_c (consoleInitPins s) hp)

end Init

/-! ## One operation -/

section Step

variable {s : Ports} {l l' : Lines} {g : Gpio} {k : Nat}

/-- A change to one pin of port A. -/
theorem Ports.Shows.set_a (h : s.Shows l) (hself : g.pin k = l'.a k)
    (hother : ∀ p < 16, p ≠ k → g.pin p = s.a.pin p)
    (ha : ∀ p < 16, p ≠ k → l'.a p = l.a p) (hb : l'.b = l.b) : { s with a := g }.Shows l' where
  a := by
    intro p hp
    by_cases hsame : p = k
    · rw [hsame, hself]
    · rw [hother p hp hsame, h.a p hp, ha p hp hsame]
  b := fun p hp => (h.b p hp).trans (congrFun hb p).symm
  c := h.c

/-- A change to one pin of port B. -/
theorem Ports.Shows.set_b (h : s.Shows l) (hself : g.pin k = l'.b k)
    (hother : ∀ p < 16, p ≠ k → g.pin p = s.b.pin p)
    (hb : ∀ p < 16, p ≠ k → l'.b p = l.b p) (ha : l'.a = l.a) : { s with b := g }.Shows l' where
  a := fun p hp => (h.a p hp).trans (congrFun ha p).symm
  b := by
    intro p hp
    by_cases hsame : p = k
    · rw [hsame, hself]
    · rw [hother p hp hsame, h.b p hp, hb p hp hsame]
  c := h.c

/-- `gpio_write_pin` on an output of port B. -/
theorem Ports.Shows.writePin_b (h : s.Shows l) (hk : k < 16) (x : BitVec 32)
    (hself : l'.b k = ((l.b k).1, decide (x ≠ 0))) (hb : ∀ p < 16, p ≠ k → l'.b p = l.b p)
    (ha : l'.a = l.a) : { s with b := s.b.writePin k x }.Shows l' := by
  refine h.set_b ?_ (fun p hp hne => ?_) hb ha
  · rw [Gpio.pin_writePin _ hk _ hk, if_pos rfl, h.b k hk, hself]
  · rw [Gpio.pin_writePin _ hk _ hp, if_neg hne]

/-- `gpio_configure_pin` on a pin of port B. -/
theorem Ports.Shows.configurePin_b (h : s.Shows l) (hk : k < 16) (mode : BitVec 32)
    (hself : l'.b k = (mode.setWidth 4, decide (mode >>> 4 ≠ 0)))
    (hb : ∀ p < 16, p ≠ k → l'.b p = l.b p) (ha : l'.a = l.a) :
    { s with b := s.b.configurePin k mode }.Shows l' := by
  refine h.set_b ?_ (fun p hp hne => ?_) hb ha
  · rw [Gpio.pin_configurePin _ hk _ hk, if_pos rfl, hself]
  · rw [Gpio.pin_configurePin _ hk _ hp, if_neg hne]

/-- The pin that an operation is on. -/
def PinOp.pin : PinOp → Nat
  | .dir _ => 7
  | .step _ => 8
  | .sel0 _ => 6
  | .wgate _ => 5
  | .side _ => 3
  | .sel1 _ => 2
  | .motor _ => 1
  | .wdata _ => 7
  | .dat _ => Led.datPin
  | .clk _ => Led.clkPin

/-- No other pin of port A is meant to change. -/
theorem PinOp.effect_a (op : PinOp) (l : Lines) {p : Nat} (hp : p < 16) (hne : p ≠ op.pin) :
    (op.effect l).a p = l.a p := by
  cases op <;> interval_cases p <;> first | rfl | exact absurd rfl hne

/-- Nor of port B. -/
theorem PinOp.effect_b (op : PinOp) (l : Lines) {p : Nat} (hp : p < 16) (hne : p ≠ op.pin) :
    (op.effect l).b p = l.b p := by
  cases op <;> interval_cases p <;> first | rfl | exact absurd rfl hne

/-- **The registers keep showing the lines**, whatever is done. -/
theorem PinOp.run_shows (h : s.Shows l) (op : PinOp) : (op.run s).Shows (op.effect l) := by
  have ha := fun p => @op.effect_a l p
  have hb := fun p => @op.effect_b l p
  cases op with
  | dir x | step x | sel0 x | wgate x | side x | motor x =>
    exact h.writePin_b (by decide) x rfl hb rfl
  | sel1 x =>
    have hk : 2 < 16 := by decide
    refine h.set_a (k := 2) ?_ (fun p hp hne => ?_) ha rfl
    · rw [Gpio.pin_writePin _ hk _ hk, if_pos rfl, h.a 2 hk]
      rfl
    · rw [Gpio.pin_writePin _ hk _ hp, if_neg hne]
  | wdata timer =>
    have hk : 7 < 16 := by decide
    refine h.set_a (k := 7) ?_ (fun p hp hne => ?_) ha rfl
    · rw [Gpio.pin_configurePin _ hk _ hk, if_pos rfl]
      cases timer <;> rfl
    · rw [Gpio.pin_configurePin _ hk _ hp, if_neg hne]
  | dat level | clk level =>
    refine h.configurePin_b (by decide) _ ?_ hb rfl
    cases level <;> rfl

theorem shows_foldl (h : s.Shows l) (ops : List PinOp) :
    (ops.foldl PinOp.run s).Shows (ops.foldl PinOp.effect l) := by
  induction ops generalizing s l with
  | nil => exact h
  | cons op ops ih => exact ih (PinOp.run_shows h op)

end Step

/-! ## One call -/

namespace Lines

variable {l : Lines}

theorem Safe.of_closed (hdrive : l.sel0 = true ∨ l.sel1 = true) (hclosed : l.wgate = true) :
    l.Safe where
  one_drive := hdrive
  write_data := fun hopen => absurd (hclosed.symm.trans hopen) (by decide)
  write_still := fun hopen => absurd (hclosed.symm.trans hopen) (by decide)

theorem Rest.safe (h : l.Rest) : l.Safe := Safe.of_closed h.one_drive h.wgate

end Lines

namespace PinCall

variable {l : Lines}

/-- **A call is safe** all the way through, and leaves the lines at rest. -/
theorem ops_safe (h : l.Rest) (c : PinCall) :
    Along PinOp.effect Lines.Safe l c.ops ∧ (c.ops.foldl PinOp.effect l).Rest := by
  have hclosed {l' : Lines} (hone : l'.sel0 = true ∨ l'.sel1 = true)
      (hwgate : l'.wgate = l.wgate) : l'.Safe :=
    .of_closed hone (hwgate.trans h.wgate)
  cases c with
  | stepOneOut | stepOneIn =>
    exact ⟨⟨h.safe, hclosed h.one_drive rfl, hclosed h.one_drive rfl, hclosed h.one_drive rfl⟩,
      h.one_drive, rfl, h.wgate, h.wdata⟩
  | floppySelect unit =>
    rw [ops]
    -- one drive is deselected before the other is selected
    split_ifs
    · exact ⟨⟨h.safe, hclosed (.inl rfl) rfl, hclosed (.inl rfl) rfl, hclosed (.inl rfl) rfl⟩,
        .inl rfl, h.step, h.wgate, h.wdata⟩
    · exact ⟨⟨h.safe, hclosed (.inr rfl) rfl, hclosed (.inr rfl) rfl, hclosed (.inr rfl) rfl⟩,
        .inr rfl, h.step, h.wgate, h.wdata⟩
  | floppyWrite =>
    -- the timer has WDATA before the gate opens, and until it is closed
    exact ⟨⟨h.safe, hclosed h.one_drive rfl,
      ⟨h.one_drive, fun _ => rfl, fun _ => h.step⟩,
      .of_closed h.one_drive rfl, Lines.Safe.of_closed h.one_drive rfl⟩,
      h.one_drive, h.step, rfl, rfl⟩
  | setSide | setMotor | setDat | setClk =>
    exact ⟨⟨h.safe, hclosed h.one_drive rfl⟩, h.one_drive, h.step, h.wgate, h.wdata⟩

end PinCall

/-! ## A run of the program -/

/-- `floppy_init`'s search, with drive 0 selected, and then the calls. -/
theorem pinOps_safe (steps : Nat) (calls : List PinCall) :
    Along PinOp.effect Lines.Safe Lines.idle (pinOps steps calls) ∧
      ((pinOps steps calls).foldl PinOp.effect Lines.idle).Rest := by
  have hselect : (PinOp.effect Lines.idle (.sel0 oTrue)).Rest := ⟨.inr rfl, rfl, rfl, rfl⟩
  obtain ⟨hsearch, hfound⟩ := along_flatMap (fun _ c h => PinCall.ops_safe h c)
    (fun _ => Lines.Rest.safe) hselect (List.replicate steps PinCall.stepOneOut)
  obtain ⟨hcalls, hend⟩ := along_flatMap (fun _ c h => PinCall.ops_safe h c)
    (fun _ => Lines.Rest.safe)
    (s := PinOp.effect _ (.sel0 oFalse)) ⟨.inl rfl, hfound.step, hfound.wgate, hfound.wdata⟩ calls
  rw [pinOps, List.foldl_append]
  exact ⟨along_append _ ⟨.of_closed (.inl rfl) rfl, hsearch⟩ ⟨hfound.safe, hcalls⟩, hend⟩

/-- **The pins over a run.**  Whatever the registers held, and whatever is called in whatever
order, the registers show the lines behind every single operation, and the lines are safe;
between calls they are at rest. -/
theorem pins_safe (s : Ports) (steps : Nat) (calls : List PinCall) :
    (∀ ops, ops <+: pinOps steps calls →
      (ops.foldl PinOp.run (initPins s)).Shows (ops.foldl PinOp.effect Lines.idle) ∧
        (ops.foldl PinOp.effect Lines.idle).Safe) ∧
      ((pinOps steps calls).foldl PinOp.effect Lines.idle).Rest := by
  obtain ⟨halong, hrest⟩ := pinOps_safe steps calls
  exact ⟨fun ops hops => ⟨shows_foldl (initPins_shows s) ops, halong.of_isPrefix hops⟩, hrest⟩

end FlashFloppyTestbed
