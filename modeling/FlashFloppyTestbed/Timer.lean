/-
  Timer.lean --- `src/timer.c`: deadline-based timer callbacks.

  Active timers hang in deadline order on one singly linked list; TIM4 is
  programmed for the first of them, and `IRQ_timer` runs the callbacks of those
  that are due.  A run interleaves calls of `timer_init`, `timer_set` and
  `timer_cancel`, made outside the interrupt or from a callback, with the passes
  of `IRQ_timer`'s loop and with ticks of the 32-bit time, which wraps.

  The clock is an ideal one.  `time_now` of `src/time.c` shows its time as long as it
  finds a time stamp that is less than one turn of the 24-bit counter old
  (`timeNow_of_fresh`), as in the runs of `Time.lean` (`timeNow_of_run`); behind an older
  one it lags by whole turns (`timeNow_lag`).

  `timer_wakeup` is that a non-empty list always has an interrupt coming in time,
  and `timer_list` that the list is well formed and callbacks fire in order.
-/
import FlashFloppyTestbed.Foundation.Chain
import FlashFloppyTestbed.Foundation.Run
import FlashFloppyTestbed.Time
import Mathlib.Algebra.Group.Int.Defs

set_option autoImplicit false

namespace FlashFloppyTestbed

open FlashFloppyTestbed.Foundation

/-! ## Time and the hardware timer -/

/-- `time_diff(x, y)`. -/
def timeDiff (x y : BitVec 32) : Int := (y - x).toInt

/-- `SYSCLK_MHZ`. -/
def sysclkMhz : Nat := 72

/-- `TIME_MHZ`. -/
def timeMhz : Nat := 9

/-- `SLACK_TICKS`. -/
def slackTicks : Int := 12

/-- TIM4: the registers `reprogram_timer` writes, the update flag, and the time
at which the counter was last cleared. -/
structure Tim where
  psc : Nat
  arr : Nat
  /-- `cr1 & TIM_CR1_CEN` -/
  cen : Bool
  /-- `sr & TIM_SR_UIF`: the interrupt is pending -/
  uif : Bool
  armedAt : Int

/-- `reprogram_timer(delta)` at time `now`. -/
def reprogramTimer (now delta : Int) : Tim :=
  if delta < 0x10000 then
    { psc := sysclkMhz / timeMhz - 1
      arr := if delta ≤ slackTicks then 1 else (delta - slackTicks).toNat
      cen := true
      uif := false
      armedAt := now }
  else
    { psc := 100 * sysclkMhz - 1
      arr := min 0xffff (delta / (100 * timeMhz) - 50).toNat
      cen := true
      uif := false
      armedAt := now }

namespace Tim

/-- The time at which the counter overflows: `psc + 1` cycles of the system clock
for each of `arr + 1` counts. -/
def expiry (t : Tim) : Int := t.armedAt + (t.psc + 1) * (t.arr + 1) / (sysclkMhz / timeMhz : Nat)

/-- The counter overflows by `due`; where that was within the slack when the timer
was programmed, at most 2 ticks after that. -/
def Covers (t : Tim) (due : Int) : Prop :=
  t.expiry ≤ due ∨ t.expiry ≤ t.armedAt + 2 ∧ due ≤ t.armedAt + slackTicks

/-- Either the interrupt is pending, or it will be in time for `due`. -/
def Armed (t : Tim) (now due : Int) : Prop :=
  t.uif = true ∨ t.cen = true ∧ now < t.expiry ∧ t.Covers due

theorem Covers.mono {t : Tim} {due due' : Int} (hle : due ≤ due') (h : t.Covers due) :
    t.Covers due' := by
  unfold Covers slackTicks at *
  omega

theorem Armed.mono {t : Tim} {now due due' : Int} (hle : due ≤ due') (h : t.Armed now due) :
    t.Armed now due' :=
  h.imp id fun hrun => ⟨hrun.1, hrun.2.1, hrun.2.2.mono hle⟩

end Tim

@[simp] theorem reprogramTimer_armedAt (now delta : Int) :
    (reprogramTimer now delta).armedAt = now := by
  unfold reprogramTimer
  split <;> rfl

@[simp] theorem reprogramTimer_cen (now delta : Int) : (reprogramTimer now delta).cen = true := by
  unfold reprogramTimer
  split <;> rfl

/-- When the counter overflows: early enough for a deadline beyond the slack, and
2 ticks later for one within. -/
theorem reprogramTimer_expiry (now delta : Int) :
    now < (reprogramTimer now delta).expiry ∧
      (if delta ≤ slackTicks then (reprogramTimer now delta).expiry = now + 2
        else (reprogramTimer now delta).expiry ≤ now + delta) := by
  unfold reprogramTimer Tim.expiry sysclkMhz timeMhz slackTicks
  by_cases hfine : delta < 0x10000
  · by_cases hslack : delta ≤ 12
    · simp only [if_pos hfine, if_pos hslack]
      omega
    · simp only [if_pos hfine, if_neg hslack]
      omega
  · have hslack : ¬ delta ≤ 12 := by omega
    simp only [if_neg hfine, if_neg hslack]
    omega

/-- A freshly programmed timer is armed for the deadline it is programmed for. -/
theorem reprogramTimer_armed (now delta : Int) :
    (reprogramTimer now delta).Armed now (now + delta) := by
  obtain ⟨hafter, hby⟩ := reprogramTimer_expiry now delta
  refine .inr ⟨reprogramTimer_cen now delta, hafter, ?_⟩
  unfold Tim.Covers
  rw [reprogramTimer_armedAt]
  split at hby <;> omega

/-! ## The timer list -/

/-- Where the program is: outside `IRQ_timer`, at the test of its loop, or in a
callback that it has called. -/
inductive TimerMode where
  | idle
  | loop
  | callback
  deriving DecidableEq

/-- What happened to a timer: `timer_set` for an absolute time, `timer_cancel`, or
its callback, invoked at an absolute time. -/
inductive TimerEvent (τ : Type) where
  | set (t : τ) (due : Int)
  | cancel (t : τ)
  | fire (t : τ) (now : Int)
  deriving DecidableEq

namespace TimerEvent

/-- The timer of an event. -/
def timer {τ : Type} : TimerEvent τ → τ
  | set t _ => t
  | cancel t => t
  | fire t _ => t

end TimerEvent

variable {τ : Type} [DecidableEq τ]

/-- The last event of a timer; the latest event of a log comes first. -/
def lastEvent (log : List (TimerEvent τ)) (t : τ) : Option (TimerEvent τ) :=
  log.find? fun e => decide (e.timer = t)

/-- The static data of `timer.c`, the `struct timer`s, TIM4, and the events so far. -/
structure TimerSys (τ : Type) where
  /-- `head`, and the `next` field of each timer -/
  links : Links τ
  deadline : τ → BitVec 32
  /-- the timers that `timer_init` was called for -/
  known : List τ
  tim : Tim
  now : Int
  mode : TimerMode
  log : List (TimerEvent τ)

namespace TimerSys

/-- Before the first call; the clock may start at any time. -/
def init (next : τ → Link τ) (deadline : τ → BitVec 32) (now : Int) : TimerSys τ where
  links := ⟨.null, next⟩
  deadline := deadline
  known := []
  tim := ⟨0, 0, false, false, now⟩
  now := now
  mode := .idle
  log := []

/-- `time_now()`. -/
def timeNow (s : TimerSys τ) : BitVec 32 := BitVec.ofInt 32 s.now

/-- `time_diff(time_now(), t->deadline)`. -/
def delta (s : TimerSys τ) (t : τ) : Int := timeDiff s.timeNow (s.deadline t)

/-- The absolute time of a deadline within 2^31 ticks of the current time. -/
def due (s : TimerSys τ) (t : τ) : Int := s.now + s.delta t

/-- `timer_is_active(timer)`. -/
def timerIsActive (s : TimerSys τ) (t : τ) : Bool := decide (s.links.next t ≠ .detached)

/-- A bound on the steps of a walk along the list. -/
def walkFuel (s : TimerSys τ) : Nat := s.known.length + 1

/-- `timer_init(timer, ..)`. -/
def timerInit (s : TimerSys τ) (t : τ) : TimerSys τ :=
  { s with links := s.links.write (.next t) .detached, known := t :: s.known }

/-- `_timer_cancel(timer)`; `none` is a walk off the list. -/
def timerUnlink (s : TimerSys τ) (t : τ) : Option (TimerSys τ) :=
  if s.timerIsActive t then
    (s.links.remove s.walkFuel t).map fun links => { s with links := links }
  else some s

/-- The test of `timer_set`'s walk: the end of the list, or a timer that is not due
before `delta`. -/
def stopAt (s : TimerSys τ) (delta : Int) : Link τ → Bool
  | .null => true
  | .node u => decide (delta ≤ s.delta u)
  | .detached => false

/-- The end of `timer_set(timer, deadline)`: link the timer in, and reprogram TIM4
for a new head. -/
def timerLink (s : TimerSys τ) (t : τ) : Option (TimerSys τ) :=
  (s.links.insert (s.stopAt (s.delta t)) s.walkFuel t).map fun links =>
    { s with
      links := links
      tim := if links.head = .node t then reprogramTimer s.now (s.delta t) else s.tim
      log := .set t (s.due t) :: s.log }

/-- `timer_set(timer, deadline)`. -/
def timerSet (s : TimerSys τ) (t : τ) (deadline : BitVec 32) : Option (TimerSys τ) :=
  (s.timerUnlink t).bind fun s =>
    { s with deadline := Function.update s.deadline t deadline }.timerLink t

/-- `timer_cancel(timer)`. -/
def timerCancel (s : TimerSys τ) (t : τ) : Option (TimerSys τ) :=
  (s.timerUnlink t).map fun s => { s with log := .cancel t :: s.log }

/-- `IRQ_timer` is entered. -/
def irqEnter (s : TimerSys τ) : TimerSys τ :=
  { s with tim := { s.tim with uif := false }, mode := .loop }

/-- One pass of `IRQ_timer`'s loop, up to the call of a callback or to the exit. -/
def irqPass (s : TimerSys τ) : Option (TimerSys τ) :=
  match s.links.head with
  | .null => some { s with mode := .idle }
  | .detached => none
  | .node t =>
      if slackTicks < s.delta t then
        some { s with tim := reprogramTimer s.now (s.delta t), mode := .idle }
      else
        some { s with
          links := s.links.pop t
          mode := .callback
          log := .fire t s.now :: s.log }

/-- The callback returns to the loop. -/
def irqReturn (s : TimerSys τ) : TimerSys τ := { s with mode := .loop }

/-- The time advances by one; an overflow of the counter stops it and raises the
interrupt. -/
def tick (s : TimerSys τ) : TimerSys τ :=
  { s with
    now := s.now + 1
    tim :=
      if s.tim.cen = true ∧ s.tim.expiry ≤ s.now + 1 then { s.tim with cen := false, uif := true }
      else s.tim }

end TimerSys

/-- One step of the timers.  Interrupts are masked during a call, so calls are made
outside `IRQ_timer` or by a callback; time passes anywhere, as long as the
deadlines of active timers stay within 2^31 ticks of it. -/
inductive TimerStep : TimerSys τ → TimerSys τ → Prop where
  | init (s : TimerSys τ) (t : τ) : s.mode ≠ .loop → t ∉ s.known → TimerStep s (s.timerInit t)
  | set (s s' : TimerSys τ) (t : τ) (deadline : BitVec 32) : s.mode ≠ .loop → t ∈ s.known →
      s.timerSet t deadline = some s' → TimerStep s s'
  | cancel (s s' : TimerSys τ) (t : τ) : s.mode ≠ .loop → t ∈ s.known →
      s.timerCancel t = some s' → TimerStep s s'
  | irqEnter (s : TimerSys τ) : s.mode = .idle → TimerStep s s.irqEnter
  | irqPass (s s' : TimerSys τ) : s.mode = .loop → s.irqPass = some s' → TimerStep s s'
  | irqReturn (s : TimerSys τ) : s.mode = .callback → TimerStep s s.irqReturn
  | tick (s : TimerSys τ) :
      (∀ t ∈ s.known, s.timerIsActive t = true → -2 ^ 31 ≤ s.due t - (s.now + 1)) →
      TimerStep s s.tick

/-! ## The clock -/

/-- The SysTick counter at an absolute time. -/
def stkAt (now : Int) : BitVec 24 := (~~~BitVec.ofInt 32 now).setWidth 24

/-- What `time_now` returns lags by the turns of the counter since the time stamp. -/
theorem timeNow_lag (now : Int) (age : Nat) :
    timeNow (~~~BitVec.ofInt 32 (now - age)) (stkAt now) =
      BitVec.ofInt 32 (now - 2 ^ 24 * (age / 2 ^ 24 : Nat)) := by
  obtain ⟨stamp, hstamp⟩ : ∃ stamp, stamp = ~~~BitVec.ofInt 32 (now - age) := ⟨_, rfl⟩
  have hstampNat : stamp.toNat = 2 ^ 32 - 1 - ((now - age) % 2 ^ 32).toNat := by
    rw [hstamp, BitVec.toNat_not, BitVec.toNat_ofInt]
    rfl
  have hval : stkAt now = stamp.setWidth 24 - BitVec.ofNat 24 (age % 2 ^ 24) := by
    apply BitVec.eq_of_toNat_eq
    rw [stkAt, BitVec.toNat_setWidth, BitVec.toNat_not, BitVec.toNat_ofInt, BitVec.toNat_sub,
      BitVec.toNat_setWidth, BitVec.toNat_ofNat, hstampNat]
    omega
  rw [← hstamp, hval, timeNow_eq stamp (Nat.mod_lt _ (by decide))]
  apply BitVec.eq_of_toNat_eq
  rw [BitVec.toNat_not, BitVec.toNat_sub, BitVec.toNat_ofNat, BitVec.toNat_ofInt, hstampNat]
  omega

omit [DecidableEq τ] in
/-- A recent time stamp gives the time of the ideal clock. -/
theorem timeNow_of_fresh (s : TimerSys τ) {age : Nat} (hage : age < 2 ^ 24) :
    timeNow (~~~BitVec.ofInt 32 (s.now - age)) (stkAt s.now) = s.timeNow := by
  rw [timeNow_lag, Nat.div_eq_of_lt hage]
  simp [TimerSys.timeNow]

omit [DecidableEq τ] in
/-- In the runs of `src/time.c`, what `time_now` returns is the time of the ideal clock, which
began at the sample of `time_init`. -/
theorem timeNow_of_run {val₀ : BitVec 24} {r : TimeRun}
    (hrun : Relation.ReflTransGen TimeStep (TimeRun.init val₀) r) {n : Nat} {x : BitVec 32}
    (hx : (n, x) ∈ r.log) {s : TimerSys τ} (hnow : s.now = n - (val₀.toNat + 1 : Nat)) :
    x = s.timeNow := by
  have hinv : r.Inv val₀ :=
    run_invariant (P := TimeRun.Inv val₀) (fun _ _ => TimeRun.Inv.step) hrun (TimeRun.Inv.init val₀)
  have hlog : x = ~~~(wideStk val₀ n) := hinv.log _ hx
  have hval := val₀.isLt
  apply BitVec.eq_of_toNat_eq
  rw [hlog, wideStk, stkNow, TimerSys.timeNow, BitVec.toNat_not, BitVec.toNat_sub,
    BitVec.toNat_setWidth, BitVec.toNat_ofNat, BitVec.toNat_ofInt, hnow]
  omega

/-! ## The chain from `head` -/

namespace TimerSys

/-- The chain from `head` is `l`, in deadline order, and these are the active timers. -/
structure Chained (s : TimerSys τ) (l : List τ) : Prop where
  chain : s.links.Spells s.links.head l
  nodup : l.Nodup
  known : ∀ t ∈ l, t ∈ s.known
  detached : ∀ t ∈ s.known, t ∉ l → s.links.next t = .detached
  sorted : l.Pairwise fun t u => s.delta t ≤ s.delta u

variable {s s' : TimerSys τ} {l : List τ} {t u : τ}

namespace Chained

theorem active_iff (h : s.Chained l) (ht : t ∈ s.known) : t ∈ l ↔ s.timerIsActive t = true := by
  unfold timerIsActive
  rw [decide_eq_true_iff]
  refine ⟨fun hmem => h.chain.next_ne_detached hmem, fun hne => ?_⟩
  by_contra hnot
  exact hne (h.detached t ht hnot)

omit [DecidableEq τ] in
theorem length_lt (h : s.Chained l) : l.length < s.walkFuel :=
  Nat.lt_succ_of_le (List.Nodup.length_le_of_subset h.nodup h.known)

omit [DecidableEq τ] in
/-- The chain depends on the deadlines only through the distances to them. -/
theorem congr (h : s.Chained l) (hlinks : s'.links = s.links) (hknown : s'.known = s.known)
    (hdelta : ∀ t ∈ l, ∀ u ∈ l, s.delta t ≤ s.delta u → s'.delta t ≤ s'.delta u) :
    s'.Chained l where
  chain := by
    rw [hlinks]
    exact h.chain
  nodup := h.nodup
  known := by
    rw [hknown]
    exact h.known
  detached := by
    rw [hlinks, hknown]
    exact h.detached
  sorted := h.sorted.imp_of_mem fun ht hu hle => hdelta _ ht _ hu hle

end Chained

/-- A state that differs in its links only. -/
theorem Chained.relink (h : s.Chained l) {links : Links τ} {l' : List τ}
    (hchain : links.Spells links.head l') (hnodup : l'.Nodup) (hknown : ∀ u ∈ l', u ∈ s.known)
    (hsorted : l'.Pairwise fun t u => s.delta t ≤ s.delta u)
    (hnext : ∀ u ∈ s.known, u ∉ l' → u ∈ l → links.next u = .detached)
    (hframe : ∀ u, u ∉ l' → u ∉ l → links.next u = s.links.next u) :
    { s with links := links }.Chained l' where
  chain := hchain
  nodup := hnodup
  known := hknown
  detached := by
    intro u hu hnot
    by_cases hmem : u ∈ l
    · exact hnext u hu hnot hmem
    · exact (hframe u hnot hmem).trans (h.detached u hu hmem)
  sorted := hsorted

theorem timerUnlink_spec (h : s.Chained l) (ht : t ∈ s.known) :
    ∃ links, s.timerUnlink t = some { s with links := links } ∧
      { s with links := links }.Chained (l.erase t) := by
  by_cases hact : s.timerIsActive t = true
  · have hmem : t ∈ l := (h.active_iff ht).mpr hact
    obtain ⟨links, hremove, hchain, hmark, hframe⟩ :=
      Links.remove_erase h.chain h.nodup hmem (Nat.le_of_lt h.length_lt)
    refine ⟨links, by rw [timerUnlink, if_pos hact, hremove, Option.map_some], ?_⟩
    refine h.relink hchain (h.nodup.erase t) (fun u hu => h.known u (List.mem_of_mem_erase hu))
      (h.sorted.sublist List.erase_sublist) (fun u _ hnot hu => ?_) (fun u _ hu => hframe u hu)
    have heq : u = t := by
      by_contra hne
      exact hnot ((List.mem_erase_of_ne hne).mpr hu)
    rw [heq]
    exact hmark
  · have hnot : t ∉ l := fun hmem => hact ((h.active_iff ht).mp hmem)
    refine ⟨s.links, by rw [timerUnlink, if_neg hact], ?_⟩
    rw [List.erase_of_not_mem hnot]
    exact h

/-- The order the list is kept in. -/
def Before (s : TimerSys τ) (t u : τ) : Prop := s.delta t ≤ s.delta u

instance (s : TimerSys τ) : DecidableRel s.Before := fun t u =>
  inferInstanceAs (Decidable (s.delta t ≤ s.delta u))

instance (s : TimerSys τ) : IsTrans τ s.Before := ⟨fun _ _ _ => Int.le_trans⟩

instance (s : TimerSys τ) : Std.Total s.Before := ⟨fun t u => Int.le_total (s.delta t) (s.delta u)⟩

theorem timerLink_spec (h : s.Chained l) (ht : t ∈ s.known) (hnew : t ∉ l) :
    ∃ links, s.timerLink t = some
        { s with
          links := links
          tim := if links.head = .node t then reprogramTimer s.now (s.delta t) else s.tim
          log := .set t (s.due t) :: s.log } ∧
      { s with links := links }.Chained (l.orderedInsert s.Before t) := by
  have hnull : s.stopAt (s.delta t) .null = true := rfl
  have hnode : ∀ u, s.stopAt (s.delta t) (.node u) = decide (s.Before t u) := fun _ => rfl
  obtain ⟨links, hinsert, hchain, hframe⟩ :=
    Links.insert_ordered h.chain h.nodup hnew hnull hnode h.length_lt
  refine ⟨links, by rw [timerLink, hinsert, Option.map_some], ?_⟩
  have hmem : ∀ u, u ∈ l.orderedInsert s.Before t ↔ u = t ∨ u ∈ l := fun u =>
    List.mem_orderedInsert s.Before
  refine h.relink hchain ?_ (fun u hu => ?_) (h.sorted.orderedInsert t l) (fun u _ hnot hu => ?_)
    (fun u hnot _ => hframe u hnot)
  · exact (List.perm_orderedInsert s.Before t l).nodup_iff.mpr (List.nodup_cons.mpr ⟨hnew, h.nodup⟩)
  · rcases (hmem u).mp hu with rfl | hu
    · exact ht
    · exact h.known u hu
  · exact absurd ((hmem u).mpr (.inr hu)) hnot

theorem pop_chained (h : s.Chained (t :: l)) : { s with links := s.links.pop t }.Chained l := by
  obtain ⟨hchain, hmark, hframe⟩ := Links.pop_spec h.chain h.nodup
  refine h.relink hchain (List.nodup_cons.mp h.nodup).2
    (fun u hu => h.known u (List.mem_cons_of_mem t hu)) (List.pairwise_cons.mp h.sorted).2
    (fun u _ hnot hu => ?_) (fun u _ hu => hframe u hu)
  rcases List.mem_cons.mp hu with rfl | hu
  · exact hmark
  · exact absurd hu hnot

/-! ## The invariant of a run -/

/-- Every callback was invoked for the `timer_set` that was the last thing to happen
to its timer, and at most `SLACK_TICKS` early. -/
def FiredInTime (log : List (TimerEvent τ)) : Prop :=
  ∀ later t now earlier, log = later ++ .fire t now :: earlier →
    ∃ due, lastEvent earlier t = some (.set t due) ∧ due - now ≤ slackTicks

/-- The chain is in order, each active timer is covered by the hardware outside
`IRQ_timer`, and was last touched by the `timer_set` of its deadline. -/
structure Inv (s : TimerSys τ) (l : List τ) : Prop where
  chained : s.Chained l
  armed : s.mode = .idle → ∀ t ∈ l, s.tim.Armed s.now (s.due t)
  last : ∀ t ∈ l, lastEvent s.log t = some (.set t (s.due t))
  fired : FiredInTime s.log

theorem lastEvent_cons_self {log : List (TimerEvent τ)} (e : TimerEvent τ) :
    lastEvent (e :: log) e.timer = some e :=
  List.find?_cons_of_pos (decide_eq_true rfl)

theorem lastEvent_cons_of_ne {log : List (TimerEvent τ)} {e : TimerEvent τ} (hne : e.timer ≠ t) :
    lastEvent (e :: log) t = lastEvent log t :=
  List.find?_cons_of_neg (by rw [decide_eq_true_iff]; exact hne)

theorem FiredInTime.cons {log : List (TimerEvent τ)} {e : TimerEvent τ} (h : FiredInTime log)
    (he : ∀ t now, e = .fire t now →
      ∃ due, lastEvent log t = some (.set t due) ∧ due - now ≤ slackTicks) :
    FiredInTime (e :: log) := by
  intro later t now earlier hlog
  cases later with
  | nil =>
    obtain ⟨rfl, rfl⟩ := List.cons.inj hlog
    exact he t now rfl
  | cons e' later => exact h later t now earlier (List.cons.inj hlog).2

theorem init_inv (next : τ → Link τ) (deadline : τ → BitVec 32) (now : Int) :
    (init next deadline now).Inv [] where
  chained :=
    { chain := rfl
      nodup := List.nodup_nil
      known := fun t ht => absurd ht List.not_mem_nil
      detached := fun t ht _ => absurd ht List.not_mem_nil
      sorted := List.Pairwise.nil }
  armed := fun _ t ht => absurd ht List.not_mem_nil
  last := fun t ht => absurd ht List.not_mem_nil
  fired := fun later t now earlier hlog => absurd hlog (by simp [init])

theorem timerInit_inv (h : s.Inv l) (hfresh : t ∉ s.known) : (s.timerInit t).Inv l where
  chained := by
    have hnext : ∀ u, u ≠ t → (s.timerInit t).links.next u = s.links.next u := fun u hne =>
      Function.update_of_ne hne _ _
    refine
      { chain := h.chained.chain.congr fun u hu => hnext u fun heq => ?_
        nodup := h.chained.nodup
        known := fun u hu => List.mem_cons_of_mem t (h.chained.known u hu)
        detached := fun u hu hnot => ?_
        sorted := h.chained.sorted }
    · exact hfresh (heq ▸ h.chained.known u hu)
    · by_cases heq : u = t
      · rw [heq]
        exact Function.update_self t _ _
      · rw [hnext u heq]
        exact h.chained.detached u ((List.mem_cons.mp hu).resolve_left heq) hnot
  armed := h.armed
  last := h.last
  fired := h.fired

theorem timerUnlink_inv (h : s.Inv l) (ht : t ∈ s.known) :
    ∃ links, s.timerUnlink t = some { s with links := links } ∧
      { s with links := links }.Inv (l.erase t) := by
  obtain ⟨links, hunlink, hchained⟩ := timerUnlink_spec h.chained ht
  exact ⟨links, hunlink, hchained, fun hidle u hu => h.armed hidle u (List.mem_of_mem_erase hu),
    fun u hu => h.last u (List.mem_of_mem_erase hu), h.fired⟩

/-- `timer->deadline = deadline` on a timer that is not in the list. -/
theorem setDeadline_inv (h : s.Inv l) (hnot : t ∉ l) (deadline : BitVec 32) :
    { s with deadline := Function.update s.deadline t deadline }.Inv l := by
  have hdelta : ∀ u ∈ l,
      { s with deadline := Function.update s.deadline t deadline }.delta u = s.delta u := by
    intro u hu
    show timeDiff s.timeNow (Function.update s.deadline t deadline u) = _
    have hne : u ≠ t := fun heq => hnot (heq ▸ hu)
    rw [Function.update_of_ne hne]
    rfl
  have hdue : ∀ u ∈ l,
      { s with deadline := Function.update s.deadline t deadline }.due u = s.due u :=
    fun u hu => congrArg (s.now + ·) (hdelta u hu)
  refine ⟨h.chained.congr rfl rfl fun u hu v hv hle => ?_, fun hidle u hu => ?_, fun u hu => ?_,
    h.fired⟩
  · rw [hdelta u hu, hdelta v hv]
    exact hle
  · rw [hdue u hu]
    exact h.armed hidle u hu
  · rw [hdue u hu]
    exact h.last u hu

/-- A new head is programmed for; any other timer is due no earlier than the head,
which is covered already. -/
theorem timerLink_inv (h : s.Inv l) (ht : t ∈ s.known) (hnew : t ∉ l) :
    ∃ s', s.timerLink t = some s' ∧ s'.Inv (l.orderedInsert s.Before t) := by
  obtain ⟨links, hlink, hchained⟩ := timerLink_spec h.chained ht hnew
  have hmem : ∀ {u}, u ∈ l.orderedInsert s.Before t → u = t ∨ u ∈ l :=
    (List.mem_orderedInsert s.Before).mp
  refine ⟨_, hlink, hchained.congr rfl rfl fun _ _ _ _ hle => hle, fun hidle u hu => ?_,
    fun u hu => ?_, h.fired.cons fun _ _ heq => by cases heq⟩
  · show Tim.Armed (if links.head = .node t then reprogramTimer s.now (s.delta t) else s.tim)
      s.now (s.due u)
    have hsorted := hchained.sorted
    have hhead := hchained.chain.eq_firstLink
    cases hl : l.orderedInsert s.Before t with
    | nil =>
      rw [hl] at hu
      exact absurd hu List.not_mem_nil
    | cons v rest =>
      rw [hl] at hu hsorted hhead
      have hle : s.due v ≤ s.due u := by
        rcases List.mem_cons.mp hu with rfl | hu
        · exact Int.le_refl _
        · have hafter : s.delta v ≤ s.delta u := (List.pairwise_cons.mp hsorted).1 u hu
          unfold due
          omega
      refine Tim.Armed.mono hle ?_
      by_cases hv : v = t
      · rw [if_pos (by rw [hhead, hv]; rfl), hv]
        exact reprogramTimer_armed s.now (s.delta t)
      · rw [if_neg fun heq => hv (by rw [hhead] at heq; cases heq; rfl)]
        have hold : v ∈ l := (hmem (by rw [hl]; exact List.mem_cons_self)).resolve_left hv
        exact h.armed hidle v hold
  · by_cases heq : u = t
    · rw [heq]
      exact lastEvent_cons_self _
    · show lastEvent (.set t (s.due t) :: s.log) u = some (.set u (s.due u))
      rw [lastEvent_cons_of_ne fun h' => heq h'.symm]
      exact h.last u ((hmem hu).resolve_left heq)

/-- `timer_set` always ends, and keeps the invariant. -/
theorem timerSet_inv (h : s.Inv l) (ht : t ∈ s.known) (deadline : BitVec 32) :
    ∃ s' l', s.timerSet t deadline = some s' ∧ s'.Inv l' := by
  obtain ⟨links, hunlink, hinv⟩ := timerUnlink_inv h ht
  have hnot : t ∉ l.erase t := h.chained.nodup.not_mem_erase
  obtain ⟨s', hlink, hinv'⟩ := timerLink_inv (setDeadline_inv hinv hnot deadline) ht hnot
  exact ⟨s', _, by rw [timerSet, hunlink, Option.bind_some, hlink], hinv'⟩

/-- `timer_cancel` always ends, and keeps the invariant. -/
theorem timerCancel_inv (h : s.Inv l) (ht : t ∈ s.known) :
    ∃ s' l', s.timerCancel t = some s' ∧ s'.Inv l' := by
  obtain ⟨links, hunlink, hinv⟩ := timerUnlink_inv h ht
  refine ⟨{ s with links := links, log := .cancel t :: s.log }, l.erase t,
    by rw [timerCancel, hunlink, Option.map_some],
    hinv.chained.congr rfl rfl fun _ _ _ _ hle => hle, hinv.armed, fun u hu => ?_,
    h.fired.cons fun _ _ heq => by cases heq⟩
  have hne : t ≠ u := fun heq => h.chained.nodup.not_mem_erase (heq ▸ hu)
  show lastEvent (.cancel t :: s.log) u = some (.set u (s.due u))
  rw [lastEvent_cons_of_ne (e := .cancel t) hne]
  exact hinv.last u hu

theorem irqEnter_inv (h : s.Inv l) : s.irqEnter.Inv l where
  chained := h.chained.congr rfl rfl fun _ _ _ _ hle => hle
  armed := fun hidle => by cases hidle
  last := h.last
  fired := h.fired

theorem irqReturn_inv (h : s.Inv l) : s.irqReturn.Inv l where
  chained := h.chained.congr rfl rfl fun _ _ _ _ hle => hle
  armed := fun hidle => by cases hidle
  last := h.last
  fired := h.fired

/-- What a pass of `IRQ_timer`'s loop does: it ends on an empty list, ends with TIM4
programmed for a head beyond the slack, or calls the head's callback. -/
theorem irqPass_cases (h : s.Chained l) :
    (l = [] ∧ s.irqPass = some { s with mode := .idle }) ∨
    (∃ t rest, l = t :: rest ∧ slackTicks < s.delta t ∧
      s.irqPass = some { s with tim := reprogramTimer s.now (s.delta t), mode := .idle }) ∨
    ∃ t rest, l = t :: rest ∧ s.delta t ≤ slackTicks ∧
      s.irqPass = some { s with
        links := s.links.pop t
        mode := .callback
        log := .fire t s.now :: s.log } := by
  have hhead := h.chain.eq_firstLink
  cases l with
  | nil =>
    have hhead : s.links.head = .null := hhead
    exact .inl ⟨rfl, by rw [irqPass, hhead]⟩
  | cons t rest =>
    have hhead : s.links.head = .node t := hhead
    by_cases hslack : slackTicks < s.delta t
    · exact .inr (.inl ⟨t, rest, rfl, hslack, by rw [irqPass, hhead]; exact if_pos hslack⟩)
    · exact .inr (.inr ⟨t, rest, rfl, Int.not_lt.mp hslack,
        by rw [irqPass, hhead]; exact if_neg hslack⟩)

/-- A pass of `IRQ_timer`'s loop never fails, and keeps the invariant. -/
theorem irqPass_inv (h : s.Inv l) : ∃ s' l', s.irqPass = some s' ∧ s'.Inv l' := by
  rcases irqPass_cases h.chained with ⟨rfl, hpass⟩ | ⟨t, rest, rfl, _, hpass⟩ |
    ⟨t, rest, rfl, hslack, hpass⟩
  · exact ⟨_, [], hpass, h.chained.congr rfl rfl fun _ _ _ _ hle => hle,
      fun _ t ht => absurd ht List.not_mem_nil, h.last, h.fired⟩
  · refine ⟨_, t :: rest, hpass, h.chained.congr rfl rfl fun _ _ _ _ hle => hle, fun _ u hu => ?_,
      h.last, h.fired⟩
    refine Tim.Armed.mono ?_ (reprogramTimer_armed s.now (s.delta t))
    show s.now + s.delta t ≤ s.now + s.delta u
    rcases List.mem_cons.mp hu with rfl | hu
    · exact Int.le_refl _
    · have hafter := (List.pairwise_cons.mp h.chained.sorted).1 u hu
      omega
  · refine ⟨_, rest, hpass, (pop_chained h.chained).congr rfl rfl fun _ _ _ _ hle => hle,
      fun hidle => (by cases hidle), fun u hu => ?_, h.fired.cons fun t' now heq => ?_⟩
    · have hne : t ≠ u := fun heq => (List.nodup_cons.mp h.chained.nodup).1 (heq ▸ hu)
      show lastEvent (.fire t s.now :: s.log) u = some (.set u (s.due u))
      rw [lastEvent_cons_of_ne (e := .fire t s.now) hne]
      exact h.last u (List.mem_cons_of_mem t hu)
    · cases heq
      refine ⟨s.due t, h.last t List.mem_cons_self, ?_⟩
      unfold due
      omega

/-- Time passes under a deadline that stays within 2^31 ticks of it. -/
theorem timeDiff_add {now k : Int} {d : BitVec 32} (hk : 0 ≤ k)
    (hin : -2 ^ 31 ≤ timeDiff (BitVec.ofInt 32 now) d - k) :
    timeDiff (BitVec.ofInt 32 (now + k)) d = timeDiff (BitVec.ofInt 32 now) d - k := by
  unfold timeDiff at hin ⊢
  simp only [BitVec.toInt_sub, BitVec.toInt_ofInt, Int.sub_bmod_bmod] at hin ⊢
  simp only [Int.bmod, Nat.reducePow] at hin ⊢
  split at hin <;> split <;> omega

theorem timeDiff_succ {now : Int} {d : BitVec 32}
    (hin : -2 ^ 31 < timeDiff (BitVec.ofInt 32 now) d) :
    timeDiff (BitVec.ofInt 32 (now + 1)) d = timeDiff (BitVec.ofInt 32 now) d - 1 :=
  timeDiff_add (by omega) (by omega)

theorem tick_inv (h : s.Inv l)
    (hin : ∀ t ∈ s.known, s.timerIsActive t = true → -2 ^ 31 ≤ s.due t - (s.now + 1)) :
    s.tick.Inv l := by
  have hdelta : ∀ t ∈ l, s.tick.delta t = s.delta t - 1 := by
    intro t ht
    have hknown := h.chained.known t ht
    have hin := hin t hknown ((h.chained.active_iff hknown).mp ht)
    unfold due at hin
    have hin : -2 ^ 31 < s.delta t := by omega
    exact timeDiff_succ hin
  have hdue : ∀ t ∈ l, s.tick.due t = s.due t := by
    intro t ht
    show s.now + 1 + s.tick.delta t = s.now + s.delta t
    rw [hdelta t ht]
    omega
  refine ⟨h.chained.congr rfl rfl fun u hu v hv hle => ?_, fun hidle t ht => ?_, fun t ht => ?_,
    h.fired⟩
  · rw [hdelta u hu, hdelta v hv]
    omega
  · rw [hdue t ht]
    show Tim.Armed (if s.tim.cen = true ∧ s.tim.expiry ≤ s.now + 1 then
      { s.tim with cen := false, uif := true } else s.tim) (s.now + 1) (s.due t)
    by_cases hover : s.tim.cen = true ∧ s.tim.expiry ≤ s.now + 1
    · rw [if_pos hover]
      exact .inl rfl
    · rw [if_neg hover]
      refine (h.armed hidle t ht).imp id fun ⟨hcen, _, hcovers⟩ => ⟨hcen, ?_, hcovers⟩
      exact Int.not_le.mp fun hle => hover ⟨hcen, hle⟩
  · rw [hdue t ht]
    exact h.last t ht

end TimerSys

/-! ## Runs -/

section Runs

variable {s s' : TimerSys τ}

theorem TimerStep.inv (hstep : TimerStep s s') (h : ∃ l, s.Inv l) : ∃ l, s'.Inv l := by
  obtain ⟨l, h⟩ := h
  cases hstep with
  | init t _ hfresh => exact ⟨l, TimerSys.timerInit_inv h hfresh⟩
  | set _ t deadline _ ht hset =>
    obtain ⟨s'', l', hset', hinv⟩ := TimerSys.timerSet_inv h ht deadline
    cases hset.symm.trans hset'
    exact ⟨l', hinv⟩
  | cancel _ t _ ht hcancel =>
    obtain ⟨s'', l', hcancel', hinv⟩ := TimerSys.timerCancel_inv h ht
    cases hcancel.symm.trans hcancel'
    exact ⟨l', hinv⟩
  | irqEnter _ => exact ⟨l, TimerSys.irqEnter_inv h⟩
  | irqPass _ _ hpass =>
    obtain ⟨s'', l', hpass', hinv⟩ := TimerSys.irqPass_inv h
    cases hpass.symm.trans hpass'
    exact ⟨l', hinv⟩
  | irqReturn _ => exact ⟨l, TimerSys.irqReturn_inv h⟩
  | tick hin => exact ⟨l, TimerSys.tick_inv h hin⟩

variable {next : τ → Link τ} {deadline : τ → BitVec 32} {now : Int}

theorem timer_inv (hrun : Relation.ReflTransGen TimerStep (TimerSys.init next deadline now) s) :
    ∃ l, s.Inv l :=
  run_invariant (P := fun s => ∃ l, TimerSys.Inv s l) (fun _ _ => TimerStep.inv) hrun
    ⟨[], TimerSys.init_inv next deadline now⟩

/-- **No lost wakeup**: outside `IRQ_timer`, a non-empty list has the interrupt
pending, or TIM4 enabled with an expiry in time for its head; and so has every
active timer. -/
theorem timer_wakeup
    (hrun : Relation.ReflTransGen TimerStep (TimerSys.init next deadline now) s)
    (hidle : s.mode = .idle) :
    (s.links.head ≠ .null → ∃ t, s.links.head = .node t ∧ s.tim.Armed s.now (s.due t)) ∧
      ∀ t ∈ s.known, s.timerIsActive t = true → s.tim.Armed s.now (s.due t) := by
  obtain ⟨l, h⟩ := timer_inv hrun
  refine ⟨fun hne => ?_, fun t ht hact => h.armed hidle t ((h.chained.active_iff ht).mpr hact)⟩
  have hhead := h.chained.chain.eq_firstLink
  cases l with
  | nil => exact absurd hhead hne
  | cons t rest => exact ⟨t, hhead, h.armed hidle t List.mem_cons_self⟩

/-- A timer set for 20 ticks ahead, before its interrupt. -/
theorem timer_wakeup_one_timer : ∃ s : TimerSys (Fin 2),
    Relation.ReflTransGen TimerStep (TimerSys.init (fun _ => .null) (fun _ => 0) (-1)) s ∧
      s.links.head = .node 0 ∧ s.due 0 = 19 ∧ s.tim.Armed s.now (s.due 0) := by
  obtain ⟨s, hset, hidle, hhead, hknown, hact, hdue⟩ : ∃ s,
      ((TimerSys.init (fun _ => .null) (fun _ => 0) (-1)).timerInit (0 : Fin 2)).timerSet 0 19 =
          some s ∧ s.mode = .idle ∧ s.links.head = .node 0 ∧ 0 ∈ s.known ∧
          s.timerIsActive 0 = true ∧ s.due 0 = 19 :=
    ⟨_, rfl, rfl, rfl, List.mem_cons_self, by decide, by decide⟩
  have hinit := TimerStep.init (TimerSys.init (fun _ => .null) (fun _ => 0) (-1)) (0 : Fin 2)
    (by decide) List.not_mem_nil
  have hrun := (Relation.ReflTransGen.single hinit).tail
    (TimerStep.set _ s 0 19 (by decide) List.mem_cons_self hset)
  exact ⟨s, hrun, hhead, hdue, (timer_wakeup hrun hidle).2 0 hknown hact⟩

/-- **The timer list**: the chain from `head` is finite and without repetition, holds
exactly the active timers, and is in deadline order; no call fails; each
callback belongs to the `timer_set` that was the last thing to happen to its
timer, comes at most `SLACK_TICKS` early, and finds no timer with an earlier
deadline in the list. -/
theorem timer_list
    (hrun : Relation.ReflTransGen TimerStep (TimerSys.init next deadline now) s) :
    (∃ l : List τ, s.links.Spells s.links.head l ∧ l.Nodup ∧
      (∀ t, t ∈ l ↔ t ∈ s.known ∧ s.links.next t ≠ .detached) ∧
      l.Pairwise fun t u => timeDiff s.timeNow (s.deadline t) ≤ timeDiff s.timeNow (s.deadline u)) ∧
    (∀ t ∈ s.known, (∀ d, (s.timerSet t d).isSome = true) ∧ (s.timerCancel t).isSome = true) ∧
    s.irqPass.isSome = true ∧
    (∀ later t n earlier, s.log = later ++ .fire t n :: earlier →
      ∃ due, lastEvent earlier t = some (.set t due) ∧ due - n ≤ slackTicks) ∧
    ∀ s' t, s.irqPass = some s' → s'.log = .fire t s.now :: s.log →
      ∀ u ∈ s.known, s.timerIsActive u = true → s.due t ≤ s.due u := by
  obtain ⟨l, h⟩ := timer_inv hrun
  refine ⟨⟨l, h.chained.chain, h.chained.nodup, fun t => ⟨fun ht => ?_, fun ht => ?_⟩,
    h.chained.sorted⟩, fun t ht => ⟨fun d => ?_, ?_⟩, ?_, h.fired,
    fun s' t hpass hlog u hu hact => ?_⟩
  · exact ⟨h.chained.known t ht, h.chained.chain.next_ne_detached ht⟩
  · exact (h.chained.active_iff ht.1).mpr (decide_eq_true ht.2)
  · obtain ⟨s', _, hset, _⟩ := TimerSys.timerSet_inv h ht d
    rw [hset]
    rfl
  · obtain ⟨s', _, hcancel, _⟩ := TimerSys.timerCancel_inv h ht
    rw [hcancel]
    rfl
  · obtain ⟨s', _, hpass, _⟩ := TimerSys.irqPass_inv h
    rw [hpass]
    rfl
  · have hmem : u ∈ l := (h.chained.active_iff hu).mpr hact
    rcases TimerSys.irqPass_cases h.chained with ⟨_, hpass'⟩ | ⟨_, _, _, _, hpass'⟩ |
      ⟨t', rest, rfl, _, hpass'⟩
    · cases hpass.symm.trans hpass'
      exact absurd hlog.symm (List.cons_ne_self _ _)
    · cases hpass.symm.trans hpass'
      exact absurd hlog.symm (List.cons_ne_self _ _)
    · cases hpass.symm.trans hpass'
      cases (List.cons.inj hlog).1
      rcases List.mem_cons.mp hmem with rfl | hmem
      · exact Int.le_refl _
      · have hafter := (List.pairwise_cons.mp h.chained.sorted).1 u hmem
        unfold TimerSys.due
        omega

/-- A timer set for 5 ticks ahead is run by the next interrupt. -/
theorem timer_list_one_timer : ∃ s : TimerSys (Fin 2),
    Relation.ReflTransGen TimerStep (TimerSys.init (fun _ => .null) (fun _ => 0) 0) s ∧
      s.log = [.fire 0 0, .set 0 5] ∧
      ∃ l : List (Fin 2), s.links.Spells s.links.head l ∧ l.Nodup ∧
        ∀ t, t ∈ l ↔ t ∈ s.known ∧ s.links.next t ≠ .detached := by
  obtain ⟨s, s', hset, hpass, hlog, hidle⟩ : ∃ s s',
      ((TimerSys.init (fun _ => .null) (fun _ => 0) 0).timerInit (0 : Fin 2)).timerSet 0 5 =
          some s ∧ s.irqEnter.irqPass = some s' ∧ s'.log = [.fire 0 0, .set 0 5] ∧
          s.mode = .idle :=
    ⟨_, _, rfl, rfl, by decide, rfl⟩
  have hinit := TimerStep.init (TimerSys.init (fun _ => .null) (fun _ => 0) 0) (0 : Fin 2)
    (by decide) List.not_mem_nil
  have hrun := (((Relation.ReflTransGen.single hinit).tail
    (TimerStep.set _ s 0 5 (by decide) List.mem_cons_self hset)).tail
    (TimerStep.irqEnter s hidle)).tail
    (TimerStep.irqPass _ s' rfl hpass)
  obtain ⟨l, hchain, hnodup, hactive, _⟩ := (timer_list hrun).1
  exact ⟨s', hrun, hlog, l, hchain, hnodup, hactive⟩

end Runs

end FlashFloppyTestbed
