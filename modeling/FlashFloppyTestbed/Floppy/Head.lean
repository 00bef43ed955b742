/-
  Floppy/Head.lean --- head positioning of `src/floppy.c`, with the drive at the
  other end of the cable.

  The drive moves its head when it is selected and STEP becomes active, and asserts
  TRK0 when it is selected and the head is at cylinder 0.  The program counts in
  `drive[].cyl`, eight bits wide; `Synced` says that the count is where the head is.
  The loops that wait for the drive have `fuel`.

  A disk change also waits for things that happen in their own time: `ChangeEnv` is
  all of them, with the readings of the clock.  A `BUG_ON` that fires stops the
  program where it is.  The motor line is an output that nothing here looks at.
-/
import FlashFloppyTestbed.Foundation.Loop
import FlashFloppyTestbed.Foundation.Run
import FlashFloppyTestbed.Timer

set_option autoImplicit false

namespace FlashFloppyTestbed.Floppy

open FlashFloppyTestbed.Foundation

/-! ## Lines and drive -/

/-- The outputs, asserted or not, what the program keeps, and the drive of unit 0. -/
structure Head where
  /-- `drive[].cyl` -/
  cyl : Fin 2 → BitVec 8
  /-- `cur_drive` -/
  curDrive : Fin 2
  dir : Bool
  step : Bool
  sel0 : Bool
  side : Bool
  /-- the cylinder that the head is at -/
  head : Nat
  /-- the step pulses until DSKCHG is deasserted -/
  changePulses : Nat

namespace Head

/-- `get_trk0()`. -/
def getTrk0 (s : Head) : Bool := s.sel0 && s.head == 0

/-- `get_dskchg()`. -/
def getDskchg (s : Head) : Bool := s.sel0 && s.changePulses != 0

/-- `set_dir(x)`. -/
def setDir (s : Head) (x : Bool) : Head := { s with dir := x }

/-- `set_step(x)`: the drive steps when the line becomes active. -/
def setStep (s : Head) (x : Bool) : Head :=
  if x && !s.step && s.sel0 then
    { s with
      step := x
      head := if s.dir then s.head + 1 else s.head - 1
      changePulses := s.changePulses - 1 }
  else { s with step := x }

/-- `cur_drive->cyl = x`. -/
def setCyl (s : Head) (x : BitVec 8) : Head :=
  { s with cyl := Function.update s.cyl s.curDrive x }

/-- `cur_drive->cyl`. -/
def curCyl (s : Head) : BitVec 8 := s.cyl s.curDrive

/-! ## The functions -/

/-- `step_one_out`. -/
def stepOneOut (s : Head) : Head := ((s.setDir false).setStep true).setStep false

/-- `step_one_in`. -/
def stepOneIn (s : Head) : Head := ((s.setDir true).setStep true).setStep false

/-- `while (get_trk0() != O_TRUE) step_one_out();` -/
def seekTrk0 : Nat → Head → Option Head := whileLoop (fun s => !s.getTrk0) stepOneOut

/-- The outputs as `board_floppy_init` leaves them. -/
def boardFloppyInit (s : Head) : Head :=
  { s with dir := false, step := false, sel0 := false, side := false }

/-- `floppy_init`, as far as the head is concerned. -/
def floppyInit (fuel : Nat) (s : Head) : Option Head :=
  (seekTrk0 fuel { s.boardFloppyInit with sel0 := true }).map fun s =>
    { s with sel0 := false, cyl := Function.update s.cyl 0 0 }

/-- `floppy_select`. -/
def floppySelect (s : Head) (unit : Fin 2) : Head :=
  { s with curDrive := unit, sel0 := unit == 0 }

/-- `while (drv->cyl < cyl) { step_one_in(); drv->cyl++; }` -/
def seekIn (cyl : Nat) : Nat → Head → Option Head :=
  whileLoop (fun s => decide (s.curCyl.toNat < cyl)) fun s =>
    s.stepOneIn.setCyl (s.stepOneIn.curCyl + 1)

/-- `while (drv->cyl > cyl) { step_one_out(); drv->cyl--; }` -/
def seekOut (cyl : Nat) : Nat → Head → Option Head :=
  whileLoop (fun s => decide (s.curCyl.toNat > cyl)) fun s =>
    s.stepOneOut.setCyl (s.stepOneOut.curCyl - 1)

/-- `floppy_seek`. -/
def floppySeek (fuel : Nat) (s : Head) (cyl side : Nat) : Option Head :=
  let s := { s with side := side ≠ 0 }
  (if cyl = 0 then (seekTrk0 fuel s).map fun s => s.setCyl 0 else some s).bind fun s =>
    (seekIn cyl fuel s).bind fun s => seekOut cyl fuel s

end Head

/-! ## Disk change -/

/-- `time_ms(x)`. -/
def timeMs (x : Int) : Int := x * (timeMhz * 1000)

/-- What a disk change waits for. -/
structure ChangeEnv where
  /-- the results of `time_now()` -/
  clock : Nat → BitVec 32
  /-- how often `dskchg.count` is found to be 0 -/
  countPolls : Nat
  /-- the step pulses until DSKCHG is deasserted -/
  pulses : Nat
  /-- how often READY is found to be deasserted -/
  readyPolls : Nat

/-- Where the program is in a disk change. -/
structure Changed where
  head : Head
  /-- a `BUG_ON` has fired -/
  bug : Bool
  /-- the number of the next clock reading -/
  next : Nat
  /-- what is printed about a long disk change: Eject, Insert, Ready -/
  long : Option (Int × Int × Int)

namespace ChangeEnv

/-- A wait that ends after so many polls, since `t` and for no longer than `limit`. -/
def poll (clock : Nat → BitVec 32) (t : BitVec 32) (limit : Int) : Nat → Changed → Changed
  | 0, c => c
  | k + 1, c =>
    if timeDiff t (clock c.next) > limit then { c with bug := true, next := c.next + 1 }
    else poll clock t limit k { c with next := c.next + 1 }

/-- Wait for DSKCHG to toggle. -/
def waitCount (env : ChangeEnv) (s : Head) : Changed :=
  poll env.clock (env.clock 0) (timeMs 1000) env.countPolls
    { head := { s with changePulses := env.pulses }, bug := false, next := 1, long := none }

/-- One turn of the loop that waits for the image to be mounted. -/
def mountStep (env : ChangeEnv) (t : BitVec 32) (c : Changed) : Changed :=
  if timeDiff t (env.clock c.next) > timeMs 5000 then { c with bug := true, next := c.next + 1 }
  else
    let s := c.head.stepOneOut
    let s := if s.curCyl ≠ 0 then s.setCyl (s.curCyl - 1) else s
    { c with head := s, next := c.next + 1 }

/-- Wait for the image to be mounted. -/
def waitMount (env : ChangeEnv) (fuel : Nat) (c : Changed) : Option Changed :=
  whileLoop (fun c => !c.bug && c.head.getDskchg) (env.mountStep (env.clock c.next)) fuel
    { c with next := c.next + 1 }

/-- Wait for motor spin up. -/
def waitReady (env : ChangeEnv) (c : Changed) : Changed :=
  if c.bug then c
  else
    poll env.clock (env.clock c.next) (timeMs 1000) env.readyPolls { c with next := c.next + 1 }

/-- `t[3]`, and what is printed about a long disk change. -/
def report (env : ChangeEnv) (t₁ t₂ : BitVec 32) (c : Changed) : Changed :=
  let t₀ := env.clock 0
  let t₃ := env.clock c.next
  if c.bug then c
  else
    { c with
      next := c.next + 1
      long :=
        if timeDiff t₀ t₃ > timeMs 1000 then
          some ((timeDiff t₀ t₁).tdiv (timeMs 1), (timeDiff t₁ t₂).tdiv (timeMs 1),
            (timeDiff t₂ t₃).tdiv (timeMs 1))
        else none }

end ChangeEnv

/-- `floppy_disk_change`. -/
def Head.floppyDiskChange (fuel : Nat) (env : ChangeEnv) (s : Head) : Option Changed :=
  if s.getTrk0 then some { head := s, bug := true, next := 0, long := none }
  else
    (s.floppySeek fuel 0 0).bind fun s =>
      let c₁ := env.waitCount s
      (env.waitMount fuel c₁).map fun c₂ =>
        env.report (env.clock c₁.next) (env.clock c₂.next) (env.waitReady c₂)

namespace Head

/-! ## Steps -/

/-- Selected, and not in the middle of a step. -/
structure Idle (s : Head) : Prop where
  sel0 : s.sel0 = true
  step : s.step = false

/-- Unit 0 is selected, and its count is where its head is. -/
structure Synced (s : Head) : Prop extends s.Idle where
  drive : s.curDrive = 0
  count : (s.cyl 0).toNat = s.head

variable {s : Head}

@[simp] theorem setCyl_head (x : BitVec 8) : (s.setCyl x).head = s.head := rfl

theorem setCyl_cyl_zero (h : s.curDrive = 0) (x : BitVec 8) : (s.setCyl x).cyl 0 = x := by
  show Function.update s.cyl s.curDrive x 0 = x
  rw [h, Function.update_self]

theorem Idle.setCyl (h : s.Idle) (x : BitVec 8) : (s.setCyl x).Idle := ⟨h.sel0, h.step⟩

theorem Idle.getTrk0 (h : s.Idle) : s.getTrk0 = (s.head == 0) := by
  rw [Head.getTrk0, h.sel0, Bool.true_and]

theorem Idle.getDskchg (h : s.Idle) : s.getDskchg = (s.changePulses != 0) := by
  rw [Head.getDskchg, h.sel0, Bool.true_and]

theorem Synced.curCyl (h : s.Synced) : s.curCyl.toNat = s.head := by
  rw [Head.curCyl, h.drive, h.count]

theorem Synced.head_le (h : s.Synced) : s.head ≤ 255 := by
  have := (s.cyl 0).isLt
  rw [h.count] at this
  omega

theorem stepOneOut_eq (h : s.Idle) : s.stepOneOut =
    { s with dir := false, head := s.head - 1, changePulses := s.changePulses - 1 } := by
  obtain ⟨hsel, hstep⟩ := h
  simp [stepOneOut, setStep, setDir, hsel, hstep]

theorem stepOneIn_eq (h : s.Idle) : s.stepOneIn =
    { s with dir := true, head := s.head + 1, changePulses := s.changePulses - 1 } := by
  obtain ⟨hsel, hstep⟩ := h
  simp [stepOneIn, setStep, setDir, hsel, hstep]

theorem Idle.stepOneOut (h : s.Idle) : s.stepOneOut.Idle := by
  rw [stepOneOut_eq h]
  exact ⟨h.sel0, h.step⟩

theorem Idle.stepOneIn (h : s.Idle) : s.stepOneIn.Idle := by
  rw [stepOneIn_eq h]
  exact ⟨h.sel0, h.step⟩

/-- A step in, counted. -/
theorem Synced.stepIn (h : s.Synced) (hlt : s.head < 255) :
    (s.stepOneIn.setCyl (s.stepOneIn.curCyl + 1)).Synced ∧
      (s.stepOneIn.setCyl (s.stepOneIn.curCyl + 1)).head = s.head + 1 := by
  have hcur : s.stepOneIn.curCyl = s.curCyl := by rw [stepOneIn_eq h.toIdle]; rfl
  have hhead : s.stepOneIn.head = s.head + 1 := by rw [stepOneIn_eq h.toIdle]
  have hdrive : s.stepOneIn.curDrive = 0 := by rw [stepOneIn_eq h.toIdle]; exact h.drive
  refine ⟨⟨h.toIdle.stepOneIn.setCyl _, hdrive, ?_⟩, hhead⟩
  rw [setCyl_cyl_zero hdrive, setCyl_head, hhead, hcur, BitVec.toNat_add, h.curCyl]
  show (s.head + 1) % 2 ^ 8 = s.head + 1
  omega

/-- A step out, counted. -/
theorem Synced.stepOut (h : s.Synced) (hpos : 0 < s.head) :
    (s.stepOneOut.setCyl (s.stepOneOut.curCyl - 1)).Synced ∧
      (s.stepOneOut.setCyl (s.stepOneOut.curCyl - 1)).head = s.head - 1 := by
  have hcur : s.stepOneOut.curCyl = s.curCyl := by rw [stepOneOut_eq h.toIdle]; rfl
  have hhead : s.stepOneOut.head = s.head - 1 := by rw [stepOneOut_eq h.toIdle]
  have hdrive : s.stepOneOut.curDrive = 0 := by rw [stepOneOut_eq h.toIdle]; exact h.drive
  have hle := h.head_le
  refine ⟨⟨h.toIdle.stepOneOut.setCyl _, hdrive, ?_⟩, hhead⟩
  rw [setCyl_cyl_zero hdrive, setCyl_head, hhead, hcur, BitVec.toNat_sub, h.curCyl]
  show (2 ^ 8 - 1 + s.head) % 2 ^ 8 = s.head - 1
  omega

/-! ## Seeks -/

/-- TRK0 is found from anywhere. -/
theorem seekTrk0_settles (h : s.Idle) : ∃ t, (t.Idle ∧ t.curDrive = s.curDrive) ∧ t.head = 0 ∧
    Settles (fun fuel => seekTrk0 fuel s) s.head t := by
  obtain ⟨t, ht, hexit, hend⟩ := whileLoop_settles (c := fun t : Head => !t.getTrk0)
    (f := stepOneOut) (P := fun t => t.Idle ∧ t.curDrive = s.curDrive) Head.head
    (fun t ht hc => by
      obtain ⟨hidle, hdrive⟩ := ht
      have hpos : t.head ≠ 0 := by simpa [hidle.getTrk0] using hc
      refine ⟨⟨hidle.stepOneOut, ?_⟩, ?_⟩
      · rw [stepOneOut_eq hidle]
        exact hdrive
      · rw [stepOneOut_eq hidle]
        show t.head - 1 < t.head
        omega)
    ⟨h, rfl⟩
  refine ⟨t, ht, ?_, hend⟩
  simpa [ht.1.getTrk0] using hexit

/-- The loop that steps in gets to `cyl`, or stays where it is beyond it. -/
theorem seekIn_settles (h : s.Synced) {cyl : Nat} (hcyl : cyl ≤ 255) :
    ∃ t, t.Synced ∧ t.head = max s.head cyl ∧ Settles (fun fuel => seekIn cyl fuel s) 255 t := by
  obtain ⟨t, ⟨hsync, hmax⟩, hexit, hend⟩ := whileLoop_settles
    (c := fun t : Head => decide (t.curCyl.toNat < cyl))
    (f := fun t => t.stepOneIn.setCyl (t.stepOneIn.curCyl + 1))
    (P := fun t => t.Synced ∧ max t.head cyl = max s.head cyl) (fun t => cyl - t.head)
    (fun t ht hc => by
      obtain ⟨hsync, hmax⟩ := ht
      have hlt : t.head < cyl := by simpa [hsync.curCyl] using hc
      obtain ⟨hstep, hhead⟩ := hsync.stepIn (by omega)
      refine ⟨⟨hstep, ?_⟩, ?_⟩
      · rw [hhead]
        omega
      · simp only [hhead]
        omega)
    ⟨h, rfl⟩
  have hge : cyl ≤ t.head := by simpa [hsync.curCyl] using hexit
  exact ⟨t, hsync, by omega, hend.mono (by omega)⟩

/-- The loop that steps out gets to `cyl` from beyond it. -/
theorem seekOut_settles (h : s.Synced) {cyl : Nat} (hcyl : cyl ≤ s.head) :
    ∃ t, t.Synced ∧ t.head = cyl ∧ Settles (fun fuel => seekOut cyl fuel s) 255 t := by
  obtain ⟨t, ⟨hsync, hge⟩, hexit, hend⟩ := whileLoop_settles
    (c := fun t : Head => decide (t.curCyl.toNat > cyl))
    (f := fun t => t.stepOneOut.setCyl (t.stepOneOut.curCyl - 1))
    (P := fun t => t.Synced ∧ cyl ≤ t.head) Head.head
    (fun t ht hc => by
      obtain ⟨hsync, hge⟩ := ht
      have hlt : cyl < t.head := by simpa [hsync.curCyl] using hc
      obtain ⟨hstep, hhead⟩ := hsync.stepOut (by omega)
      refine ⟨⟨hstep, ?_⟩, ?_⟩
      · rw [hhead]
        omega
      · rw [hhead]
        omega)
    ⟨h, hcyl⟩
  have hle : t.head ≤ cyl := by simpa [hsync.curCyl] using hexit
  exact ⟨t, hsync, by omega, hend.mono h.head_le⟩

/-- `floppy_seek` gets to the cylinder, and keeps the count. -/
theorem floppySeek_settles (h : s.Synced) {cyl : Nat} (hcyl : cyl ≤ 255) (side : Nat) :
    ∃ t, t.Synced ∧ t.head = cyl ∧ Settles (fun fuel => s.floppySeek fuel cyl side) 255 t := by
  obtain ⟨s', hs'⟩ : ∃ s', s' = { s with side := decide (side ≠ 0) } := ⟨_, rfl⟩
  have hsync' : s'.Synced := by
    subst hs'
    exact ⟨⟨h.sel0, h.step⟩, h.drive, h.count⟩
  -- whatever the first part does, it ends with the count right
  obtain ⟨t₀, ht₀, hend₀⟩ : ∃ t, t.Synced ∧ Settles (fun fuel =>
      if cyl = 0 then (seekTrk0 fuel s').map fun s => s.setCyl 0 else some s') 255 t := by
    by_cases hzero : cyl = 0
    · obtain ⟨t, ⟨hidle, hdrive⟩, hhead, hend⟩ := seekTrk0_settles hsync'.toIdle
      refine ⟨t.setCyl 0, ⟨hidle.setCyl 0, hdrive.trans hsync'.drive, ?_⟩, ?_⟩
      · rw [setCyl_cyl_zero (hdrive.trans hsync'.drive), setCyl_head, hhead]
        rfl
      · simp only [if_pos hzero]
        exact (hend.map _).mono hsync'.head_le
    · refine ⟨s', hsync', ?_⟩
      simp only [if_neg hzero]
      exact .pure s'
  obtain ⟨t₁, ht₁, hhead₁, hend₁⟩ := seekIn_settles ht₀ hcyl
  obtain ⟨t₂, ht₂, hhead₂, hend₂⟩ := seekOut_settles ht₁ (show cyl ≤ t₁.head by omega)
  refine ⟨t₂, ht₂, hhead₂, ?_⟩
  unfold floppySeek
  rw [← hs']
  exact hend₀.bind (hend₁.bind hend₂)

end Head

/-! ## Disk changes -/

namespace ChangeEnv

variable {clock : Nat → BitVec 32} {t : BitVec 32} {limit : Int}

/-- A wait changes neither the head nor what is printed. -/
theorem poll_head (clock : Nat → BitVec 32) (t : BitVec 32) (limit : Int) (k : Nat) (c : Changed) :
    (poll clock t limit k c).head = c.head := by
  induction k generalizing c with
  | zero => rfl
  | succ k ih =>
    unfold poll
    split
    · rfl
    · rw [ih]

/-- A wait with all readings in time. -/
theorem poll_onTime {k : Nat} {c : Changed}
    (h : ∀ i < k, timeDiff t (clock (c.next + i)) ≤ limit) :
    poll clock t limit k c = { c with next := c.next + k } := by
  induction k generalizing c with
  | zero => rfl
  | succ k ih =>
    have hfirst : ¬ timeDiff t (clock c.next) > limit := not_lt.mpr (h 0 (by omega))
    rw [poll, if_neg hfirst, ih (c := { c with next := c.next + 1 }) (fun i hi => ?_)]
    · simp only [Changed.mk.injEq, true_and, and_true]
      omega
    · have := h (i + 1) (by omega)
      rwa [show c.next + (i + 1) = c.next + 1 + i by omega] at this

/-- A wait with a reading that is late. -/
theorem poll_late {k i : Nat} {c : Changed} (hi : i < k)
    (h : limit < timeDiff t (clock (c.next + i))) : (poll clock t limit k c).bug = true := by
  induction k generalizing c i with
  | zero => omega
  | succ k ih =>
    rw [poll]
    split
    · rfl
    · next hfirst =>
      cases i with
      | zero => exact absurd h hfirst
      | succ i =>
        refine ih (i := i) (c := { c with next := c.next + 1 }) (by omega) ?_
        rwa [show c.next + 1 + i = c.next + (i + 1) by omega]

theorem poll_bug {k : Nat} {c : Changed} (hbug : c.bug = false) :
    (poll clock t limit k c).bug = false ↔ ∀ i < k, timeDiff t (clock (c.next + i)) ≤ limit := by
  constructor
  · intro h i hi
    by_contra hlate
    have := poll_late hi (not_le.mp hlate)
    rw [h] at this
    contradiction
  · intro h
    rw [poll_onTime h]
    exact hbug

/-- The readings of the clock stay within the limits of the three waits. -/
structure InTime (env : ChangeEnv) : Prop where
  count : ∀ i < env.countPolls, timeDiff (env.clock 0) (env.clock (1 + i)) ≤ timeMs 1000
  mount : ∀ i < env.pulses, timeDiff (env.clock (1 + env.countPolls))
    (env.clock (1 + env.countPolls + 1 + i)) ≤ timeMs 5000
  ready : ∀ i < env.readyPolls, timeDiff (env.clock (1 + env.countPolls + 1 + env.pulses))
    (env.clock (1 + env.countPolls + 1 + env.pulses + 1 + i)) ≤ timeMs 1000

theorem waitCount_head (env : ChangeEnv) (s : Head) :
    (env.waitCount s).head = { s with changePulses := env.pulses } := by
  rw [waitCount, poll_head]

theorem waitCount_bug (env : ChangeEnv) (s : Head) : (env.waitCount s).bug = false ↔
    ∀ i < env.countPolls, timeDiff (env.clock 0) (env.clock (1 + i)) ≤ timeMs 1000 := by
  rw [waitCount, poll_bug rfl]

theorem waitCount_next {env : ChangeEnv} {s : Head} (h : (env.waitCount s).bug = false) :
    (env.waitCount s).next = 1 + env.countPolls := by
  rw [waitCount, poll_onTime]
  exact (waitCount_bug env s).mp h

theorem waitReady_head (env : ChangeEnv) (c : Changed) : (env.waitReady c).head = c.head := by
  unfold waitReady
  split
  · rfl
  · rw [poll_head]

theorem waitReady_bug (env : ChangeEnv) (c : Changed) : (env.waitReady c).bug = false ↔
    c.bug = false ∧ ∀ i < env.readyPolls, timeDiff (env.clock c.next)
      (env.clock (c.next + 1 + i)) ≤ timeMs 1000 := by
  unfold waitReady
  cases hbug : c.bug with
  | true => simp [hbug]
  | false =>
    rw [if_neg Bool.false_ne_true, poll_bug rfl]
    simp

theorem report_head (env : ChangeEnv) (t₁ t₂ : BitVec 32) (c : Changed) :
    (env.report t₁ t₂ c).head = c.head := by
  unfold report
  split <;> rfl

theorem report_bug (env : ChangeEnv) (t₁ t₂ : BitVec 32) (c : Changed) :
    (env.report t₁ t₂ c).bug = c.bug := by
  unfold report
  split <;> rfl

/-- What the loop that waits for the image keeps; its polls begin at reading `n`. -/
structure Mounting (env : ChangeEnv) (t : BitVec 32) (n : Nat) (c : Changed) : Prop where
  sync : c.head.Synced
  zero : c.head.head = 0
  running : c.bug = false → ∃ i, c.next = n + i ∧ i + c.head.changePulses = env.pulses ∧
    ∀ j < i, timeDiff t (env.clock (n + j)) ≤ timeMs 5000
  late : c.bug = true → ∃ i < env.pulses, timeMs 5000 < timeDiff t (env.clock (n + i))

variable {env : ChangeEnv} {n : Nat} {c : Changed}

/-- Stepping out at cylinder 0 moves neither the head nor the count. -/
theorem mountStep_eq (hsync : c.head.Synced) (hzero : c.head.head = 0)
    (htime : timeDiff t (env.clock c.next) ≤ timeMs 5000) :
    env.mountStep t c = { c with head := c.head.stepOneOut, next := c.next + 1 } := by
  have hcur : c.head.stepOneOut.curCyl = 0 := by
    rw [Head.stepOneOut_eq hsync.toIdle]
    exact BitVec.eq_of_toNat_eq (hsync.curCyl.trans hzero)
  unfold mountStep
  rw [if_neg (not_lt.mpr htime)]
  simp [hcur]

/-- One turn of the loop, while DSKCHG is asserted. -/
theorem Mounting.step (h : env.Mounting t n c) (hbug : c.bug = false)
    (hpos : c.head.changePulses ≠ 0) : env.Mounting t n (env.mountStep t c) ∧
      ((env.mountStep t c).bug = true ∨ (env.mountStep t c).bug = false ∧
        (env.mountStep t c).head.changePulses = c.head.changePulses - 1) := by
  obtain ⟨i, hnext, hpulses, hearlier⟩ := h.running hbug
  by_cases hlate : timeDiff t (env.clock c.next) > timeMs 5000
  · have hstep : env.mountStep t c = { c with bug := true, next := c.next + 1 } := by
      rw [mountStep, if_pos hlate]
    rw [hstep]
    refine ⟨⟨h.sync, h.zero, fun hf => absurd hf (by simp), fun _ => ⟨i, by omega, ?_⟩⟩, .inl rfl⟩
    rw [← hnext]
    exact hlate
  · have htime := not_lt.mp hlate
    rw [mountStep_eq h.sync h.zero htime, Head.stepOneOut_eq h.sync.toIdle]
    refine ⟨⟨⟨⟨h.sync.sel0, h.sync.step⟩, h.sync.drive, ?_⟩, ?_, fun _ => ?_, ?_⟩, .inr ⟨hbug, rfl⟩⟩
    · show (c.head.cyl 0).toNat = c.head.head - 1
      rw [h.sync.count, h.zero]
    · show c.head.head - 1 = 0
      rw [h.zero]
    · refine ⟨i + 1, by simp only [hnext]; omega, by simp only; omega, fun j hj => ?_⟩
      rcases Nat.lt_succ_iff_lt_or_eq.mp hj with hlt | rfl
      · exact hearlier j hlt
      · rwa [← hnext]
    · exact fun hf => absurd hf (by simp [hbug])

/-- The wait for the image ends, at cylinder 0: in a `BUG_ON` if a reading is late. -/
theorem waitMount_settles (hsync : c.head.Synced) (hzero : c.head.head = 0)
    (hbug : c.bug = false) (hpulses : c.head.changePulses = env.pulses) :
    ∃ c', c'.head.Synced ∧ c'.head.head = 0 ∧
      (c'.bug = false ↔ ∀ i < env.pulses, timeDiff (env.clock c.next)
        (env.clock (c.next + 1 + i)) ≤ timeMs 5000) ∧
      (c'.bug = false → c'.next = c.next + 1 + env.pulses) ∧
      Settles (fun fuel => env.waitMount fuel c) env.pulses c' := by
  have hstart : env.Mounting (env.clock c.next) (c.next + 1) { c with next := c.next + 1 } :=
    { sync := hsync
      zero := hzero
      running := fun _ => ⟨0, rfl, by simp only; omega, fun j hj => absurd hj (by omega)⟩
      late := fun hf => absurd hf (by simp [hbug]) }
  obtain ⟨c', hc', hexit, hend⟩ := whileLoop_settles
    (c := fun c : Changed => !c.bug && c.head.getDskchg) (f := env.mountStep (env.clock c.next))
    (P := env.Mounting (env.clock c.next) (c.next + 1))
    (fun c => if c.bug then 0 else c.head.changePulses)
    (fun c hc hcond => by
      obtain ⟨hbug, hdskchg⟩ : c.bug = false ∧ c.head.getDskchg = true := by simpa using hcond
      have hpos : c.head.changePulses ≠ 0 := by simpa [hc.sync.getDskchg] using hdskchg
      obtain ⟨hkeep, hb | ⟨hb, hless⟩⟩ := hc.step hbug hpos
      · exact ⟨hkeep, by simp [hb, hbug]; omega⟩
      · exact ⟨hkeep, by simp [hb, hbug]; omega⟩)
    hstart
  have hnone : c'.bug = false → c'.head.changePulses = 0 := fun hb => by
    simpa [hb, hc'.sync.getDskchg] using hexit
  refine ⟨c', hc'.sync, hc'.zero, ⟨fun hb => ?_, fun htime => ?_⟩, fun hb => ?_,
    hend.mono (by simp [hbug, hpulses])⟩
  · obtain ⟨i, -, hsum, hearlier⟩ := hc'.running hb
    have := hnone hb
    exact fun j hj => hearlier j (by omega)
  · cases hb : c'.bug with
    | false => rfl
    | true =>
      obtain ⟨i, hi, hlate⟩ := hc'.late hb
      exact absurd hlate (not_lt.mpr (htime i hi))
  · obtain ⟨i, hnext, hsum, -⟩ := hc'.running hb
    have := hnone hb
    omega

/-- The three waits, from cylinder 0: what they wait for decides how they end. -/
theorem waits_settle (env : ChangeEnv) {s : Head} (hsync : s.Synced) (hzero : s.head = 0) :
    ∃ c, c.head.Synced ∧ c.head.head = 0 ∧ ((env.waitReady c).bug = false ↔ env.InTime) ∧
      Settles (fun fuel => env.waitMount fuel (env.waitCount s)) env.pulses c := by
  obtain ⟨c₁, hc₁⟩ : ∃ c, c = env.waitCount s := ⟨_, rfl⟩
  have hhead₁ : c₁.head = { s with changePulses := env.pulses } := by
    rw [hc₁, waitCount_head]
  have hsync₁ : c₁.head.Synced := by
    rw [hhead₁]
    exact ⟨⟨hsync.sel0, hsync.step⟩, hsync.drive, hsync.count⟩
  have hzero₁ : c₁.head.head = 0 := by rw [hhead₁, hzero]
  rw [← hc₁]
  cases hbug₁ : c₁.bug with
  | true =>
    -- stopped in the first wait
    refine ⟨{ c₁ with next := c₁.next + 1 }, hsync₁, hzero₁, ?_, whileLoop_exit ?_ _⟩
    · rw [waitReady_bug]
      refine ⟨fun hready => absurd hready.1 (by simp [hbug₁]), fun htime => ?_⟩
      have := (waitCount_bug env s).mpr htime.count
      rw [← hc₁, hbug₁] at this
      contradiction
    · simp [hbug₁]
  | false =>
    have hcount := hc₁ ▸ hbug₁
    have hnext₁ : c₁.next = 1 + env.countPolls := by
      rw [hc₁]
      exact waitCount_next hcount
    obtain ⟨c₂, hsync₂, hzero₂, hbug₂, hnext₂, hend₂⟩ :=
      waitMount_settles hsync₁ hzero₁ hbug₁ (by rw [hhead₁])
    refine ⟨c₂, hsync₂, hzero₂, ?_, hend₂⟩
    rw [waitReady_bug, hbug₂]
    constructor
    · rintro ⟨hmount, hready⟩
      rw [hnext₂ (hbug₂.mpr hmount), hnext₁] at hready
      rw [hnext₁] at hmount
      exact ⟨(waitCount_bug env s).mp hcount, hmount, hready⟩
    · intro htime
      have hmount := hnext₁ ▸ htime.mount
      refine ⟨hmount, ?_⟩
      rw [hnext₂ (hbug₂.mpr hmount), hnext₁]
      exact htime.ready

end ChangeEnv

namespace Head

variable {s : Head}

/-- `floppy_disk_change` ends at cylinder 0, and keeps the count; it returns if and only
if what it waits for happens in time. -/
theorem floppyDiskChange_settles (h : s.Synced) (hhead : s.head ≠ 0) (env : ChangeEnv) :
    ∃ c, c.head.Synced ∧ c.head.head = 0 ∧ (c.bug = false ↔ env.InTime) ∧
      Settles (fun fuel => s.floppyDiskChange fuel env) (max 255 env.pulses) c := by
  obtain ⟨s₀, hsync₀, hzero₀, hend₀⟩ := floppySeek_settles h (Nat.zero_le 255) 0
  obtain ⟨c, hsync, hzero, hbug, hend⟩ := env.waits_settle hsync₀ hzero₀
  obtain ⟨c', hc'⟩ : ∃ c', c' = env.report (env.clock (env.waitCount s₀).next)
    (env.clock c.next) (env.waitReady c) := ⟨_, rfl⟩
  have hsame : c'.head = c.head := by
    rw [hc', ChangeEnv.report_head, ChangeEnv.waitReady_head]
  have hnot : s.getTrk0 = false := by simpa [h.getTrk0] using hhead
  refine ⟨c', hsame ▸ hsync, hsame ▸ hzero, by rw [hc', ChangeEnv.report_bug, hbug], ?_⟩
  simp only [floppyDiskChange, hnot, Bool.false_eq_true, if_false]
  rw [hc']
  exact (hend₀.mono (Nat.le_max_left 255 env.pulses)).bind
    ((hend.mono (Nat.le_max_right 255 env.pulses)).map _)

/-! ## Runs -/

/-- `floppy_init` finds cylinder 0 from anywhere, and unit 0 is in step when it is
selected. -/
theorem floppyInit_settles (s : Head) :
    ∃ t, (t.floppySelect 0).Synced ∧ Settles (fun fuel => s.floppyInit fuel) s.head t := by
  have hidle : ({ s.boardFloppyInit with sel0 := true } : Head).Idle := ⟨rfl, rfl⟩
  obtain ⟨t, ⟨ht, -⟩, hhead, hend⟩ := seekTrk0_settles hidle
  refine ⟨{ t with sel0 := false, cyl := Function.update t.cyl 0 0 },
    ⟨⟨rfl, ht.step⟩, rfl, ?_⟩, hend.map _⟩
  show (Function.update t.cyl 0 0 0).toNat = t.head
  rw [Function.update_self, hhead]
  rfl

/-- A call that returns. -/
inductive CallStep : Head → Head → Prop where
  | seek {s t : Head} (fuel cyl side : Nat) (hcyl : cyl ≤ 255)
      (h : s.floppySeek fuel cyl side = some t) : CallStep s t
  | diskChange {s : Head} {c : Changed} (fuel : Nat) (env : ChangeEnv) (hhead : s.head ≠ 0)
      (h : s.floppyDiskChange fuel env = some c) (hreturn : c.bug = false) : CallStep s c.head

theorem CallStep.synced {s t : Head} (hstep : CallStep s t) (h : s.Synced) : t.Synced := by
  cases hstep with
  | seek fuel cyl side hcyl hseek =>
    obtain ⟨t', ht', -, hend⟩ := floppySeek_settles h hcyl side
    rwa [hend.unique fuel t hseek]
  | @diskChange c fuel env hhead hchange _ =>
    obtain ⟨c', hc', -, -, hend⟩ := floppyDiskChange_settles h hhead env
    rwa [hend.unique fuel c hchange]

/-- After any calls the count is where the head is; a seek ends where it is to go, and a
disk change at cylinder 0. -/
theorem floppy_tracks_head (s₀ : Head) :
    ∃ s₁, Settles (fun fuel => s₀.floppyInit fuel) s₀.head s₁ ∧
      ∀ s, Relation.ReflTransGen CallStep (s₁.floppySelect 0) s →
        (s.cyl 0).toNat = s.head ∧
        (∀ cyl side, cyl ≤ 255 → ∃ t, Settles (fun fuel => s.floppySeek fuel cyl side) 255 t ∧
          t.head = cyl ∧ (t.cyl 0).toNat = t.head) ∧
        ∀ env : ChangeEnv, s.head ≠ 0 → ∃ c,
          Settles (fun fuel => s.floppyDiskChange fuel env) (max 255 env.pulses) c ∧
          c.head.head = 0 ∧ (c.head.cyl 0).toNat = c.head.head ∧ (c.bug = false ↔ env.InTime) := by
  obtain ⟨s₁, hsync₁, hinit⟩ := floppyInit_settles s₀
  refine ⟨s₁, hinit, fun s hrun => ?_⟩
  have hsync : s.Synced := run_invariant (fun _ _ hstep h => hstep.synced h) hrun hsync₁
  refine ⟨hsync.count, fun cyl side hcyl => ?_, fun env hhead => ?_⟩
  · obtain ⟨t, ht, hcyl, hend⟩ := floppySeek_settles hsync hcyl side
    exact ⟨t, hend, hcyl, ht.count⟩
  · obtain ⟨c, hc, hzero, hbug, hend⟩ := floppyDiskChange_settles hsync hhead env
    exact ⟨c, hend, hzero, hc.count, hbug⟩

end Head

end FlashFloppyTestbed.Floppy
