/-
  TimerProgress.lean --- what `reprogram_timer` writes, and that the interrupts it
  asks for come to an end.

  While the deadline is far, an interrupt only programs the timer anew.  `interrupts`
  is a run of interrupts, each with its own latency and with the time stamp that
  `time_now` finds then, and of no calls in between.  The remaining time gets shorter
  with every one, unless a deadline that has passed is far again: a latency of more than
  2^31 ticks makes the 32-bit difference wrap, and a time stamp that a turn of the
  counter has gone by makes `time_now` fall back.  With recent stamps a pass is the one
  of `Timer` (`irqPassAt_reading`).
-/
import FlashFloppyTestbed.Timer
import Mathlib.Algebra.Group.Nat.Defs

set_option autoImplicit false

namespace FlashFloppyTestbed

/-! ## The registers -/

/-- The interval that the timer is programmed for, in cycles of the system clock. -/
def Tim.cycles (t : Tim) : Int := (t.arr + 1) * (t.psc + 1)

/-- Both registers have 16 bits, in either regime. -/
theorem reprogramTimer_fits (now delta : Int) : (reprogramTimer now delta).psc < 2 ^ 16 ∧
    1 ≤ (reprogramTimer now delta).arr ∧ (reprogramTimer now delta).arr < 2 ^ 16 := by
  unfold reprogramTimer sysclkMhz timeMhz slackTicks
  by_cases hfine : delta < 0x10000
  · by_cases hslack : delta ≤ 12
    · simp only [if_pos hfine, if_pos hslack]
      omega
    · simp only [if_pos hfine, if_neg hslack]
      omega
  · simp only [if_neg hfine]
    omega

/-- A tick is 8 cycles, and the prescaler counts whole ticks. -/
theorem reprogramTimer_cycles (now delta : Int) :
    (reprogramTimer now delta).cycles = 8 * ((reprogramTimer now delta).expiry - now) := by
  rw [Tim.expiry, reprogramTimer_armedAt]
  unfold reprogramTimer Tim.cycles sysclkMhz timeMhz
  by_cases hfine : delta < 0x10000
  · simp only [if_pos hfine]
    omega
  · simp only [if_neg hfine]
    omega

/-- The interval is within `delta`, or 2 ticks where that is too short. -/
theorem reprogramTimer_interval (now delta : Int) :
    if 2 ≤ delta then (reprogramTimer now delta).cycles ≤ 8 * delta
      else (reprogramTimer now delta).cycles = 8 * 2 := by
  obtain ⟨-, hby⟩ := reprogramTimer_expiry now delta
  rw [reprogramTimer_cycles]
  unfold slackTicks at hby
  split at hby <;> split <;> omega

/-! ## Interrupts -/

namespace TimerSys

variable {τ : Type} [DecidableEq τ] {s s' : TimerSys τ} {t : τ}

/-- How an interrupt is taken: so many ticks after the timer has run to its end, when the
time stamp is so many ticks old. -/
structure Taken where
  latency : Nat
  age : Nat

/-- `time_now()`, with a time stamp that is `age` ticks old. -/
def reading (s : TimerSys τ) (age : Nat) : BitVec 32 :=
  FlashFloppyTestbed.timeNow (~~~BitVec.ofInt 32 (s.now - age)) (stkAt s.now)

/-- One pass of `IRQ_timer`'s loop, in which `time_now` returns `now`. -/
def irqPassAt (s : TimerSys τ) (now : BitVec 32) : Option (TimerSys τ) :=
  match s.links.head with
  | .null => some { s with mode := .idle }
  | .detached => none
  | .node t =>
      let delta := timeDiff now (s.deadline t)
      if slackTicks < delta then
        some { s with tim := reprogramTimer s.now delta, mode := .idle }
      else
        some { s with
          links := s.links.pop t
          mode := .callback
          log := .fire t s.now :: s.log }

/-- With a recent time stamp it is the pass of the ideal clock. -/
theorem irqPassAt_reading {age : Nat} (hage : age < 2 ^ 24) :
    s.irqPassAt (s.reading age) = s.irqPass := by
  rw [reading, timeNow_of_fresh s hage]
  rfl

/-- The timer runs to its end, and its interrupt is taken, up to the first callback or the
exit. -/
def interrupt (taken : Taken) (s : TimerSys τ) : Option (TimerSys τ) :=
  let s := (tick^[(s.tim.expiry - s.now).toNat + taken.latency] s).irqEnter
  s.irqPassAt (s.reading taken.age)

/-- So many interrupts. -/
def interrupts : Nat → (Nat → Taken) → TimerSys τ → Option (TimerSys τ)
  | 0, _, s => some s
  | n + 1, taken, s => (s.interrupt (taken 0)).bind (interrupts n fun k => taken (k + 1))

/-- The timer is programmed, for some delay, and `t` comes first. -/
structure Waiting (s : TimerSys τ) (t : τ) : Prop where
  mode : s.mode = .idle
  head : s.links.head = .node t
  tim : ∃ delta, s.tim = reprogramTimer s.now delta

/-- What `timer_set` makes the head is waited for. -/
theorem timerLink_waiting (h : s.timerLink t = some s') (hmode : s.mode = .idle)
    (hhead : s'.links.head = .node t) : s'.Waiting t := by
  obtain ⟨links, -, rfl⟩ := Option.map_eq_some_iff.mp h
  exact ⟨hmode, hhead, _, if_pos hhead⟩

/-! ## One interrupt -/

omit [DecidableEq τ] in
/-- Until the counter overflows, only the time changes. -/
theorem tick_iterate_running {k : Nat} (hk : s.now + k < s.tim.expiry) :
    tick^[k] s = { s with now := s.now + k } := by
  induction k with
  | zero => simp
  | succ k ih =>
    rw [Function.iterate_succ_apply', ih (by omega), tick]
    have hnot : ¬ (s.tim.cen = true ∧ s.tim.expiry ≤ s.now + k + 1) := by omega
    simp only [if_neg hnot, mk.injEq, true_and, and_true]
    omega

omit [DecidableEq τ] in
/-- Nor does anything else once the counter stands. -/
theorem tick_iterate_stopped (hcen : s.tim.cen = false) (k : Nat) :
    tick^[k] s = { s with now := s.now + k } := by
  induction k with
  | zero => simp
  | succ k ih =>
    rw [Function.iterate_succ_apply', ih, tick]
    simp only [hcen, Bool.false_eq_true, false_and, if_false, mk.injEq, true_and, and_true]
    omega

omit [DecidableEq τ] in
/-- The overflow, and the time until the interrupt is taken. -/
theorem tick_iterate_expiry (hcen : s.tim.cen = true) (hafter : s.now < s.tim.expiry)
    (latency : Nat) : tick^[(s.tim.expiry - s.now).toNat + latency] s =
      { s with
        now := s.tim.expiry + latency
        tim := { s.tim with cen := false, uif := true } } := by
  obtain ⟨k, hk⟩ : ∃ k : Nat, s.tim.expiry = s.now + k + 1 :=
    ⟨(s.tim.expiry - s.now - 1).toNat, by omega⟩
  have hover : tick^[k + 1] s =
      { s with now := s.tim.expiry, tim := { s.tim with cen := false, uif := true } } := by
    rw [Function.iterate_succ_apply', tick_iterate_running (by omega), tick]
    simp only [hcen, hk, le_refl, and_self, if_true]
  rw [show (s.tim.expiry - s.now).toNat + latency = latency + (k + 1) by omega,
    Function.iterate_add_apply, hover, tick_iterate_stopped rfl]

omit [DecidableEq τ] in
theorem Waiting.expiry (h : s.Waiting t) : s.tim.cen = true ∧ s.now < s.tim.expiry := by
  obtain ⟨delta, htim⟩ := h.tim
  rw [htim]
  exact ⟨reprogramTimer_cen .., (reprogramTimer_expiry ..).1⟩

/-- What an interrupt does while `t` comes first: with the remaining time that `time_now`
shows, it programs the timer anew, or gets to the callback. -/
theorem Waiting.interrupt_cases (h : s.Waiting t) (taken : Taken) :
    ∃ s' delta, s.interrupt taken = some s' ∧ s'.now = s.tim.expiry + taken.latency ∧
      s'.deadline = s.deadline ∧
      delta = timeDiff (BitVec.ofInt 32 (s'.now - 2 ^ 24 * (taken.age / 2 ^ 24 : Nat)))
        (s'.deadline t) ∧
      (slackTicks < delta ∧ s'.Waiting t ∧ s'.tim = reprogramTimer s'.now delta ∧
          s'.log = s.log ∨
        delta ≤ slackTicks ∧ s'.mode = .callback ∧ s'.log = .fire t s'.now :: s.log) := by
  obtain ⟨hcen, hafter⟩ := h.expiry
  obtain ⟨e, he⟩ : ∃ e, e = { s with
    now := s.tim.expiry + taken.latency
    tim := { s.tim with cen := false, uif := false }
    mode := .loop } := ⟨_, rfl⟩
  have henter : (tick^[(s.tim.expiry - s.now).toNat + taken.latency] s).irqEnter = e := by
    rw [he, tick_iterate_expiry hcen hafter, irqEnter]
  have hhead : e.links.head = .node t := by
    rw [he]
    exact h.head
  obtain ⟨delta, hdelta⟩ : ∃ delta, delta = timeDiff
      (BitVec.ofInt 32 (e.now - 2 ^ 24 * (taken.age / 2 ^ 24 : Nat))) (e.deadline t) := ⟨_, rfl⟩
  have hreading : timeDiff (e.reading taken.age) (e.deadline t) = delta := by
    rw [reading, timeNow_lag, hdelta]
  unfold interrupt irqPassAt
  simp only [henter, hhead, hreading]
  by_cases hfar : slackTicks < delta
  · exact ⟨_, delta, if_pos hfar, by rw [he], by rw [he], hdelta,
      .inl ⟨hfar, ⟨rfl, hhead, delta, rfl⟩, rfl, by rw [he]⟩⟩
  · exact ⟨_, delta, if_neg hfar, by rw [he], by rw [he], hdelta,
      .inr ⟨not_lt.mp hfar, rfl, by rw [he]⟩⟩

/-! ## All interrupts -/

/-- The callback of `t` is called after some interrupts, before which `t` is waited for. -/
def ReachesCallback (s : TimerSys τ) (t : τ) (taken : Nat → Taken) : Prop :=
  ∃ n s', s.interrupts n taken = some s' ∧ s'.mode = .callback ∧
    s'.log = .fire t s'.now :: s.log ∧
    ∀ m < n, ∃ s'', s.interrupts m taken = some s'' ∧ s''.Waiting t

variable {taken : Nat → Taken}

theorem ReachesCallback.one (h : s.Waiting t) (hs' : s.interrupt (taken 0) = some s')
    (hmode : s'.mode = .callback) (hlog : s'.log = .fire t s'.now :: s.log) :
    s.ReachesCallback t taken := by
  refine ⟨1, s', ?_, hmode, hlog, fun m hm => ⟨s, ?_, h⟩⟩
  · rw [interrupts, hs', Option.bind_some, interrupts]
  · rw [Nat.lt_one_iff.mp hm, interrupts]

theorem ReachesCallback.step (h : s.Waiting t) (hs' : s.interrupt (taken 0) = some s')
    (hlog : s'.log = s.log) (hreach : s'.ReachesCallback t fun k => taken (k + 1)) :
    s.ReachesCallback t taken := by
  obtain ⟨n, s₁, hrun, hmode, hfire, hearlier⟩ := hreach
  refine ⟨n + 1, s₁, ?_, hmode, hlog ▸ hfire, fun m hm => ?_⟩
  · rw [interrupts, hs', Option.bind_some, hrun]
  · cases m with
    | zero => exact ⟨s, rfl, h⟩
    | succ m =>
      obtain ⟨s₂, hs₂, hwait⟩ := hearlier m (by omega)
      exact ⟨s₂, by rw [interrupts, hs', Option.bind_some, hs₂], hwait⟩

/-- The remaining time that `time_now` shows when it lags by `lag`. -/
def deltaBehind (s : TimerSys τ) (lag : Int) (t : τ) : Int :=
  timeDiff (BitVec.ofInt 32 (s.now - lag)) (s.deadline t)

omit [DecidableEq τ] in
/-- The remaining time, after an interrupt within 2^31 ticks and with the lag of the one
before. -/
theorem deltaBehind_lt {lag : Int} (htim : s.tim = reprogramTimer s.now (s.deltaBehind lag t))
    (hfar : slackTicks < s.deltaBehind lag t) {L : Nat} (hL : L ≤ 2 ^ 31)
    (hnow : s'.now = s.tim.expiry + L) (hdeadline : s'.deadline = s.deadline) :
    s'.deltaBehind lag t < s.deltaBehind lag t := by
  obtain ⟨hafter, hby⟩ := reprogramTimer_expiry s.now (s.deltaBehind lag t)
  rw [if_neg (not_le.mpr hfar)] at hby
  rw [htim] at hnow
  obtain ⟨k, hk⟩ : ∃ k, k = s'.now - s.now := ⟨_, rfl⟩
  have hdelta : s'.deltaBehind lag t = s.deltaBehind lag t - k := by
    rw [deltaBehind, hdeadline, show s'.now - lag = s.now - lag + k by omega]
    exact timeDiff_add (by omega) (show -2 ^ 31 ≤ s.deltaBehind lag t - k by omega)
  omega

/-- From a remaining time beyond the slack, the callback is reached if no latency is too long
and `time_now` does not fall further behind. -/
theorem Waiting.reaches_of_far (h : s.Waiting t) {turns : Nat}
    (htim : s.tim = reprogramTimer s.now (s.deltaBehind (2 ^ 24 * turns) t))
    (hfar : slackTicks < s.deltaBehind (2 ^ 24 * turns) t)
    (htaken : ∀ n, (taken n).latency ≤ 2 ^ 31 ∧ (taken n).age / 2 ^ 24 = turns) :
    s.ReachesCallback t taken := by
  -- every interrupt leaves less time
  obtain ⟨k, hk⟩ : ∃ k, k = (s.deltaBehind (2 ^ 24 * turns) t).toNat := ⟨_, rfl⟩
  induction k using Nat.strongRecOn generalizing s taken with
  | _ k ih =>
    obtain ⟨s', delta, hs', hnow, hdeadline, hdelta,
      ⟨hfar', hwait, htim', hlog⟩ | ⟨-, hmode, hlog⟩⟩ := h.interrupt_cases (taken 0)
    · rw [(htaken 0).2] at hdelta
      change delta = s'.deltaBehind (2 ^ 24 * turns) t at hdelta
      rw [hdelta] at hfar' htim'
      have hlt := deltaBehind_lt htim hfar (htaken 0).1 hnow hdeadline
      have hpos : 0 < s.deltaBehind (2 ^ 24 * turns) t := by
        unfold slackTicks at hfar
        omega
      exact .step h hs' hlog (ih (s'.deltaBehind (2 ^ 24 * turns) t).toNat (by omega) hwait htim'
        hfar' (fun n => htaken (n + 1)) rfl)
    · exact .one h hs' hmode hlog

theorem Waiting.reaches (h : s.Waiting t) {N turns : Nat}
    (htaken : ∀ n, N ≤ n → (taken n).latency ≤ 2 ^ 31 ∧ (taken n).age / 2 ^ 24 = turns) :
    s.ReachesCallback t taken := by
  induction N generalizing s taken with
  | zero =>
    obtain ⟨s', delta, hs', -, -, hdelta, ⟨hfar', hwait, htim', hlog⟩ | ⟨-, hmode, hlog⟩⟩ :=
      h.interrupt_cases (taken 0)
    · rw [(htaken 0 (Nat.le_refl 0)).2] at hdelta
      change delta = s'.deltaBehind (2 ^ 24 * turns) t at hdelta
      rw [hdelta] at hfar' htim'
      exact .step h hs' hlog (hwait.reaches_of_far htim' hfar'
        fun n => htaken (n + 1) (Nat.zero_le _))
    · exact .one h hs' hmode hlog
  | succ N ih =>
    obtain ⟨s', -, hs', -, -, -, ⟨-, hwait, -, hlog⟩ | ⟨-, hmode, hlog⟩⟩ :=
      h.interrupt_cases (taken 0)
    · exact .step h hs' hlog (ih hwait fun n hn => htaken (n + 1) (by omega))
    · exact .one h hs' hmode hlog

end TimerSys

/-- For every delay, what is written fits and is not too long; and the callback is
reached, if from some interrupt on none is taken more than 2^31 ticks late and `time_now`
falls no further behind. -/
theorem timer_progress (now delta : Int) {τ : Type} [DecidableEq τ] {s : TimerSys τ} {t : τ}
    {taken : Nat → TimerSys.Taken} (h : s.Waiting t)
    (htaken : ∃ N turns, ∀ n, N ≤ n →
      (taken n).latency ≤ 2 ^ 31 ∧ (taken n).age / 2 ^ 24 = turns) :
    ((reprogramTimer now delta).psc < 2 ^ 16 ∧
      1 ≤ (reprogramTimer now delta).arr ∧ (reprogramTimer now delta).arr < 2 ^ 16 ∧
      if 2 ≤ delta then (reprogramTimer now delta).cycles ≤ 8 * delta
        else (reprogramTimer now delta).cycles = 8 * 2) ∧
    s.ReachesCallback t taken := by
  obtain ⟨hpsc, hone, harr⟩ := reprogramTimer_fits now delta
  obtain ⟨N, turns, htaken⟩ := htaken
  exact ⟨⟨hpsc, hone, harr, reprogramTimer_interval now delta⟩, h.reaches htaken⟩

/-- A timer set for 1000000 ticks ahead, whose first interrupt is taken too late, and with a
time stamp that is too old. -/
theorem timer_progress_late : ∃ s : TimerSys (Fin 2),
    ((TimerSys.init (fun _ => .null) (fun _ => 0) 0).timerInit (0 : Fin 2)).timerSet 0 1000000 =
        some s ∧ ((reprogramTimer 0 1000000).psc < 2 ^ 16 ∧ 1 ≤ (reprogramTimer 0 1000000).arr ∧
        (reprogramTimer 0 1000000).arr < 2 ^ 16 ∧
        if (2 : Int) ≤ 1000000 then (reprogramTimer 0 1000000).cycles ≤ 8 * 1000000
          else (reprogramTimer 0 1000000).cycles = 8 * 2) ∧
      s.ReachesCallback 0 fun n => if n = 0 then ⟨2 ^ 31 + 1, 2 ^ 31⟩ else ⟨n % 100, 4500000⟩ := by
  obtain ⟨s, hset, hidle, hhead, htim⟩ : ∃ s,
      ((TimerSys.init (fun _ => .null) (fun _ => 0) 0).timerInit (0 : Fin 2)).timerSet 0 1000000 =
        some s ∧ s.mode = .idle ∧ s.links.head = .node 0 ∧
        s.tim = reprogramTimer s.now (s.delta 0) :=
    ⟨_, rfl, rfl, rfl, rfl⟩
  refine ⟨s, hset, timer_progress 0 1000000 ⟨hidle, hhead, _, htim⟩ ⟨1, 0, fun n hn => ?_⟩⟩
  have hlate : n % 100 ≤ 2 ^ 31 := by omega
  have hfresh : 4500000 / 2 ^ 24 = 0 := by decide
  rw [if_neg (by omega)]
  exact ⟨hlate, hfresh⟩

/-- If every interrupt reads the same time, and the deadline is 20 ticks behind that, the timer
is programmed for 9 ticks again and again. -/
theorem interrupts_starve {τ : Type} [DecidableEq τ] {t : τ} {taken : Nat → TimerSys.Taken}
    {n : Nat} {s s' : TimerSys τ} (hrun : s.interrupts n taken = some s') {L : Nat}
    (hlatency : ∀ n, (taken n).latency = L) (hwait : s.Waiting t)
    (htim : s.tim = reprogramTimer s.now 20) (hdeadline : s.deadline t = 20)
    (hread : ∀ n : Nat, BitVec.ofInt 32
      (s.now + (n + 1) * (9 + L) - 2 ^ 24 * ((taken n).age / 2 ^ 24 : Nat)) = 0) :
    s'.mode = .idle := by
  induction n generalizing s taken with
  | zero =>
    cases hrun
    exact hwait.mode
  | succ n ih =>
    obtain ⟨s₁, delta, hs₁, hnow, hdeadline₁, hdelta, hcases⟩ := hwait.interrupt_cases (taken 0)
    have hexpiry : (reprogramTimer s.now 20).expiry = s.now + 9 := by
      unfold reprogramTimer Tim.expiry sysclkMhz timeMhz slackTicks
      simp only [Int.reduceLT, Int.reduceLE, if_true, if_false]
      omega
    rw [htim, hexpiry, hlatency] at hnow
    have hagain : delta = 20 := by
      have hzero := hread 0
      rw [show s.now + ((0 : Nat) + 1) * (9 + L) = s₁.now by omega] at hzero
      rw [hdelta, hzero, hdeadline₁, hdeadline]
      rfl
    rcases hcases with ⟨-, hwait₁, htim₁, -⟩ | ⟨hslack, -, -⟩
    · rw [TimerSys.interrupts, hs₁, Option.bind_some] at hrun
      refine ih hrun (fun n => hlatency (n + 1)) hwait₁ (hagain ▸ htim₁) (hdeadline₁ ▸ hdeadline)
        fun n => ?_
      rw [← hread (n + 1), hnow, Int.natCast_add, Int.natCast_one, Int.add_mul (n + 1 : Int) 1,
        Int.one_mul]
      congr 2
      omega
    · rw [hagain] at hslack
      exact absurd hslack (by decide)

/-- A timer set for 20 ticks ahead.  Every interrupt is taken so late that the counter has
gone round since the one before, and with the time stamp still the old one; or so late that the
32-bit time has gone round.  20 ticks are left again. -/
theorem timer_starves : ∃ s : TimerSys (Fin 2),
    ((TimerSys.init (fun _ => .null) (fun _ => 0) 0).timerInit (0 : Fin 2)).timerSet 0 20 =
        some s ∧
      (¬ ∃ n s', s.interrupts n (fun n => ⟨2 ^ 24 - 9, 2 ^ 24 * (n + 1)⟩) = some s' ∧
        s'.mode = .callback) ∧
      ¬ ∃ n s', s.interrupts n (fun _ => ⟨2 ^ 32 - 9, 0⟩) = some s' ∧ s'.mode = .callback := by
  obtain ⟨s, hset, hidle, hhead, htim, hnow, hdeadline⟩ : ∃ s,
      ((TimerSys.init (fun _ => .null) (fun _ => 0) 0).timerInit (0 : Fin 2)).timerSet 0 20 =
        some s ∧ s.mode = .idle ∧ s.links.head = .node 0 ∧ s.tim = reprogramTimer s.now 20 ∧
        s.now = 0 ∧ s.deadline 0 = 20 :=
    ⟨_, rfl, rfl, rfl, rfl, rfl, rfl⟩
  have hwait : s.Waiting 0 := ⟨hidle, hhead, _, htim⟩
  refine ⟨s, hset, ?_, ?_⟩
  · rintro ⟨n, s', hrun, hmode⟩
    have hidle' : s'.mode = .idle := by
      refine interrupts_starve hrun (fun n => rfl) hwait htim hdeadline fun n => ?_
      have hturn : s.now + (n + 1) * (9 + (2 ^ 24 - 9 : Nat)) -
          2 ^ 24 * (2 ^ 24 * (n + 1) / 2 ^ 24 : Nat) = 0 := by
        omega
      exact congrArg (BitVec.ofInt 32) hturn
    rw [hidle'] at hmode
    contradiction
  · rintro ⟨n, s', hrun, hmode⟩
    have hidle' : s'.mode = .idle := by
      refine interrupts_starve hrun (fun n => rfl) hwait htim hdeadline fun n => ?_
      have hturn : s.now + (n + 1) * (9 + (2 ^ 32 - 9 : Nat)) - 2 ^ 24 * (0 / 2 ^ 24 : Nat) =
          2 ^ 32 * (n + 1) := by
        omega
      refine (congrArg (BitVec.ofInt 32) hturn).trans (BitVec.eq_of_toNat_eq ?_)
      rw [BitVec.toNat_ofInt]
      show _ = 0
      omega
    rw [hidle'] at hmode
    contradiction

end FlashFloppyTestbed
