/-
  Time.lean --- `src/time.c`: a 32-bit system time from the 24-bit SysTick counter.

  `time_stamp` holds an inverted time of the recent past.  `time_now` puts its upper
  byte over the counter, which counts down, and borrows where that comes out above
  the stamp.  This is exact while the stamp is less than one turn of the counter old
  (`timeNow_eq`).

  A run interleaves ticks of the counter with the reads and writes of any number of
  calls in flight, so that `time_stamp_update` may come between the two reads of any
  `time_now`, or of another update.  Each stamp carries along the tick of the sample
  it was derived from, and each result the tick of its own sample.
-/
import FlashFloppyTestbed.Foundation.Run
import Mathlib.Algebra.Group.Nat.Defs
import Mathlib.Data.List.Basic
import Mathlib.Tactic.Common

set_option autoImplicit false

namespace FlashFloppyTestbed

open FlashFloppyTestbed.Foundation

/-! ## The counter -/

/-- `STK_MASK`, which `clock_init` puts into `stk->load`. -/
def stkMask : BitVec 24 := 0xffffff

/-- A tick of the counter: it counts down, and is reloaded behind zero. -/
def stkTick (val : BitVec 24) : BitVec 24 := if val = 0 then stkMask else val - 1

/-- `stk_now()`. -/
def stkNow (val : BitVec 24) : BitVec 32 := val.setWidth 32

theorem stkTick_eq (val : BitVec 24) : stkTick val = val - 1 := by
  rw [stkTick]
  split
  · rename_i hzero
    rw [hzero]
    rfl
  · rfl

/-! ## `time_now` -/

/-- `time_now()`, by the stamp and the counter value that it reads. -/
def timeNow (s : BitVec 32) (val : BitVec 24) : BitVec 32 :=
  let t := stkNow val ||| (s &&& 0xff000000)
  let t := if s < t then t - 0x1000000 else t
  ~~~t

/-- The upper byte of the stamp over the counter. -/
theorem stkNow_or (s : BitVec 32) (val : BitVec 24) :
    stkNow val ||| (s &&& 0xff000000) = s.extractLsb' 24 8 ++ val := by
  have hmask : ∀ i : Fin 32, (0xff000000 : BitVec 32).getLsbD i = decide (24 ≤ i.val) := by decide
  apply BitVec.eq_of_getLsbD_eq
  intro i hi
  rw [BitVec.getLsbD_or, BitVec.getLsbD_and, hmask ⟨i, hi⟩, stkNow, BitVec.getLsbD_setWidth,
    BitVec.getLsbD_append]
  by_cases hlow : i < 24
  · rw [if_pos hlow]
    simp [hlow, hi, Nat.not_le.mpr hlow]
  · have hge : 24 ≤ i := Nat.le_of_not_lt hlow
    rw [if_neg hlow, BitVec.getLsbD_of_ge val i hge, BitVec.getLsbD_extractLsb']
    simp [hge, show i - 24 < 8 by omega, show 24 + (i - 24) = i by omega]

/-- **A recent stamp is extended exactly**: by a counter that has gone on less than one
turn. -/
theorem timeNow_eq (s : BitVec 32) {j : Nat} (hj : j < 2 ^ 24) :
    timeNow s (s.setWidth 24 - BitVec.ofNat 24 j) = ~~~(s - BitVec.ofNat 32 j) := by
  obtain ⟨val, hval⟩ : ∃ val, val = s.setWidth 24 - BitVec.ofNat 24 j := ⟨_, rfl⟩
  obtain ⟨t, ht⟩ : ∃ t, t = s.extractLsb' 24 8 ++ val := ⟨_, rfl⟩
  have hs := s.isLt
  have hvalNat : val.toNat = (2 ^ 24 - j + s.toNat % 2 ^ 24) % 2 ^ 24 := by
    rw [hval, BitVec.toNat_sub, BitVec.toNat_setWidth, BitVec.toNat_ofNat, Nat.mod_eq_of_lt hj]
  have htNat : t.toNat = s.toNat / 2 ^ 24 * 2 ^ 24 + val.toNat := by
    rw [ht, BitVec.toNat_append, BitVec.extractLsb'_toNat, Nat.shiftRight_eq_div_pow,
      ← Nat.shiftLeft_add_eq_or_of_lt val.isLt, Nat.shiftLeft_eq,
      Nat.mod_eq_of_lt (a := s.toNat / 2 ^ 24) (by omega)]
  rw [timeNow, ← hval]
  simp only [stkNow_or, ← ht]
  congr 1
  apply BitVec.eq_of_toNat_eq
  rw [BitVec.toNat_sub, BitVec.toNat_ofNat, Nat.mod_eq_of_lt (a := j) (by omega)]
  -- the counter has passed zero since the stamp if and only if it is above its lower part
  by_cases hpassed : s < t
  · rw [if_pos hpassed, BitVec.toNat_sub]
    rw [BitVec.lt_def] at hpassed
    show (2 ^ 32 - 2 ^ 24 + t.toNat) % 2 ^ 32 = _
    omega
  · rw [if_neg hpassed]
    rw [BitVec.lt_def] at hpassed
    omega

/-! ## Runs -/

/-- A call of `time_now` in flight, made by `time_stamp_update` or by anyone else, or the
rest of a `time_stamp_update` behind it. -/
inductive TimeCall where
  /-- nothing has been read -/
  | entered (update : Bool)
  /-- `time_stamp` has been read; `origin` is the tick of the sample it was derived from -/
  | stamped (update : Bool) (stamp : BitVec 32) (origin : Nat)
  /-- `now` has not been stored; `origin` is the tick of its sample -/
  | storing (now : BitVec 32) (origin : Nat)

/-- The counter, `time_stamp`, the calls in flight and the results so far, each with the
tick of its sample. -/
structure TimeRun where
  ticks : Nat
  val : BitVec 24
  timeStamp : BitVec 32
  origin : Nat
  calls : List TimeCall
  log : List (Nat × BitVec 32)

namespace TimeRun

/-- `time_init`, which samples the counter at tick 0. -/
def init (val : BitVec 24) : TimeRun := ⟨0, val, stkNow val, 0, [], []⟩

end TimeRun

/-- One step: a tick, or a read or write of one of the calls.  A stamp that a call has
read must be less than one turn of the counter old when the call samples that. -/
inductive TimeStep : TimeRun → TimeRun → Prop where
  | tick (s : TimeRun) : TimeStep s { s with ticks := s.ticks + 1, val := stkTick s.val }
  | call (s : TimeRun) (update : Bool) :
      TimeStep s { s with calls := .entered update :: s.calls }
  | readStamp (s : TimeRun) (update : Bool) (pre post : List TimeCall) :
      s.calls = pre ++ .entered update :: post →
      TimeStep s { s with calls := pre ++ .stamped update s.timeStamp s.origin :: post }
  | sample (s : TimeRun) (update : Bool) (stamp : BitVec 32) (origin : Nat)
      (pre post : List TimeCall) :
      s.calls = pre ++ .stamped update stamp origin :: post → s.ticks < origin + 2 ^ 24 →
      TimeStep s { s with
        calls := pre ++
          (if update then [.storing (timeNow stamp s.val) s.ticks] else []) ++ post
        log := (s.ticks, timeNow stamp s.val) :: s.log }
  | store (s : TimeRun) (now : BitVec 32) (origin : Nat) (pre post : List TimeCall) :
      s.calls = pre ++ .storing now origin :: post →
      TimeStep s { s with calls := pre ++ post, timeStamp := ~~~now, origin := origin }

/-- The counter as it would be with 32 bits. -/
def wideStk (val₀ : BitVec 24) (n : Nat) : BitVec 32 := stkNow val₀ - BitVec.ofNat 32 n

theorem wideStk_add (val₀ : BitVec 24) (k j : Nat) :
    wideStk val₀ k - BitVec.ofNat 32 j = wideStk val₀ (k + j) := by
  rw [wideStk, wideStk, BitVec.ofNat_add, BitVec.sub_sub]

/-- The counter is its lower part. -/
theorem setWidth_wideStk (val₀ : BitVec 24) (n : Nat) :
    (wideStk val₀ n).setWidth 24 = val₀ - BitVec.ofNat 24 n := by
  have hval := val₀.isLt
  apply BitVec.eq_of_toNat_eq
  rw [wideStk, stkNow, BitVec.toNat_setWidth, BitVec.toNat_sub, BitVec.toNat_sub,
    BitVec.toNat_setWidth, BitVec.toNat_ofNat, BitVec.toNat_ofNat]
  omega

/-- What a call has read or is about to write is the time of its sample. -/
def TimeCall.Ok (val₀ : BitVec 24) (ticks : Nat) : TimeCall → Prop
  | .entered _ => True
  | .stamped _ stamp origin => stamp = wideStk val₀ origin ∧ origin ≤ ticks
  | .storing now origin => ~~~now = wideStk val₀ origin ∧ origin ≤ ticks

theorem TimeCall.Ok.mono {val₀ : BitVec 24} {n n' : Nat} (hle : n ≤ n') {c : TimeCall}
    (h : c.Ok val₀ n) : c.Ok val₀ n' := by
  cases c with
  | entered => exact trivial
  | stamped => exact ⟨h.1, Nat.le_trans h.2 hle⟩
  | storing => exact ⟨h.1, Nat.le_trans h.2 hle⟩

/-- The invariant: every stamp and every result is the time of the sample it goes with. -/
structure TimeRun.Inv (val₀ : BitVec 24) (s : TimeRun) : Prop where
  val : s.val = val₀ - BitVec.ofNat 24 s.ticks
  stamp : s.timeStamp = wideStk val₀ s.origin
  origin : s.origin ≤ s.ticks
  calls : ∀ c ∈ s.calls, c.Ok val₀ s.ticks
  log : ∀ e ∈ s.log, e.2 = ~~~(wideStk val₀ e.1)

namespace TimeRun.Inv

variable {val₀ : BitVec 24} {s s' : TimeRun}

theorem init (val₀ : BitVec 24) : (TimeRun.init val₀).Inv val₀ where
  val := (BitVec.sub_zero val₀).symm
  stamp := (BitVec.sub_zero (stkNow val₀)).symm
  origin := Nat.le_refl 0
  calls := fun _ hc => absurd hc List.not_mem_nil
  log := fun _ he => absurd he List.not_mem_nil

/-- A sample of a stamp that is recent enough gives the time. -/
theorem timeNow_wideStk (val₀ : BitVec 24) {k n : Nat} (hle : k ≤ n) (hlt : n < k + 2 ^ 24) :
    timeNow (wideStk val₀ k) (val₀ - BitVec.ofNat 24 n) = ~~~(wideStk val₀ n) := by
  have hnow := timeNow_eq (wideStk val₀ k) (j := n - k) (by omega)
  rw [setWidth_wideStk, BitVec.sub_sub, ← BitVec.ofNat_add, wideStk_add,
    Nat.add_sub_of_le hle] at hnow
  exact hnow

/-- Other calls than the one that goes on are left alone. -/
theorem calls_replace (h : s.Inv val₀) {pre post l : List TimeCall} {c : TimeCall}
    (hcalls : s.calls = pre ++ c :: post) (hl : ∀ c' ∈ l, c'.Ok val₀ s.ticks) :
    ∀ c' ∈ pre ++ (l ++ post), c'.Ok val₀ s.ticks := by
  have hold := h.calls
  rw [hcalls] at hold
  intro c' hc'
  rcases List.mem_append.mp hc' with hpre | hrest
  · exact hold c' (List.mem_append_left _ hpre)
  · rcases List.mem_append.mp hrest with hnew | hpost
    · exact hl c' hnew
    · exact hold c' (List.mem_append_right _ (List.mem_cons_of_mem _ hpost))

theorem calls_mem (h : s.Inv val₀) {pre post : List TimeCall} {c : TimeCall}
    (hcalls : s.calls = pre ++ c :: post) : c.Ok val₀ s.ticks := by
  refine h.calls c ?_
  rw [hcalls]
  exact List.mem_append_right _ List.mem_cons_self

theorem step (hstep : TimeStep s s') (h : s.Inv val₀) : s'.Inv val₀ := by
  cases hstep with
  | tick =>
    refine ⟨?_, h.stamp, Nat.le_succ_of_le h.origin,
      fun c hc => (h.calls c hc).mono (Nat.le_succ _), h.log⟩
    show stkTick s.val = val₀ - BitVec.ofNat 24 (s.ticks + 1)
    rw [stkTick_eq, h.val, BitVec.sub_sub, BitVec.ofNat_add]
    rfl
  | call update =>
    refine ⟨h.val, h.stamp, h.origin, fun c hc => ?_, h.log⟩
    rcases List.mem_cons.mp hc with rfl | hc
    · exact trivial
    · exact h.calls c hc
  | readStamp update pre post hcalls =>
    refine ⟨h.val, h.stamp, h.origin, h.calls_replace (l := [_]) hcalls fun c hc => ?_, h.log⟩
    rw [List.mem_singleton.mp hc]
    exact ⟨h.stamp, h.origin⟩
  | sample update stamp origin pre post hcalls hrecent =>
    obtain ⟨hstamp, hle⟩ := h.calls_mem hcalls
    have hnow : timeNow stamp s.val = ~~~(wideStk val₀ s.ticks) := by
      rw [hstamp, h.val]
      exact timeNow_wideStk val₀ hle hrecent
    refine ⟨h.val, h.stamp, h.origin, ?_, fun e he => ?_⟩
    · rw [List.append_assoc]
      refine h.calls_replace hcalls fun c hc => ?_
      split at hc
      · rw [List.mem_singleton.mp hc]
        exact ⟨by rw [hnow, BitVec.not_not], Nat.le_refl _⟩
      · exact absurd hc List.not_mem_nil
    · rcases List.mem_cons.mp he with rfl | he
      · exact hnow
      · exact h.log e he
  | store now origin pre post hcalls =>
    obtain ⟨hstamp, hle⟩ := h.calls_mem hcalls
    exact ⟨h.val, hstamp, hle, h.calls_replace (l := []) hcalls
      fun c hc => absurd hc List.not_mem_nil, h.log⟩

end TimeRun.Inv

/-- **System time is exact**: in every run from `time_init` on, any two results of
`time_now` differ by the number of ticks between their samples. -/
theorem time_now_exact {val₀ : BitVec 24} {s : TimeRun}
    (hrun : Relation.ReflTransGen TimeStep (TimeRun.init val₀) s) {n₁ n₂ : Nat}
    {r₁ r₂ : BitVec 32} (h₁ : (n₁, r₁) ∈ s.log) (h₂ : (n₂, r₂) ∈ s.log) :
    r₂ - r₁ = BitVec.ofInt 32 ((n₂ : Int) - n₁) := by
  have hinv : s.Inv val₀ :=
    run_invariant (P := TimeRun.Inv val₀) (fun _ _ => TimeRun.Inv.step) hrun (TimeRun.Inv.init val₀)
  have hr₁ : r₁ = ~~~(wideStk val₀ n₁) := hinv.log _ h₁
  have hr₂ : r₂ = ~~~(wideStk val₀ n₂) := hinv.log _ h₂
  have hval := val₀.isLt
  apply BitVec.eq_of_toNat_eq
  rw [hr₁, hr₂, wideStk, wideStk, stkNow, BitVec.toNat_sub, BitVec.toNat_not, BitVec.toNat_not,
    BitVec.toNat_sub, BitVec.toNat_sub, BitVec.toNat_setWidth, BitVec.toNat_ofNat,
    BitVec.toNat_ofNat, BitVec.toNat_ofInt]
  omega

/-- A `time_now` that is interrupted between its reads by a `time_stamp_update`, with the
counter at zero, and samples it behind its reload. -/
theorem time_now_exact_update : ∃ s, Relation.ReflTransGen TimeStep (TimeRun.init 0) s ∧
    s.log = [(1, timeNow 0 stkMask), (0, timeNow 0 0)] ∧ timeNow 0 stkMask - timeNow 0 0 = 1 := by
  obtain ⟨s, hrun, hlog⟩ : ∃ s, Relation.ReflTransGen TimeStep (TimeRun.init 0) s ∧
      s.log = [(1, timeNow 0 stkMask), (0, timeNow 0 0)] :=
    ⟨_, (((((((Relation.ReflTransGen.refl.tail (TimeStep.call (TimeRun.init 0) false)).tail
      (TimeStep.readStamp _ false [] [] rfl)).tail (TimeStep.call _ true)).tail
      (TimeStep.readStamp _ true [] _ rfl)).tail
      (TimeStep.sample _ true _ 0 [] _ rfl (by decide))).tail
      (TimeStep.store _ _ 0 [] _ rfl)).tail (TimeStep.tick _)).tail
      (TimeStep.sample _ false _ 0 [] [] rfl (by decide)), rfl⟩
  have hfirst : (0, timeNow 0 0) ∈ s.log := by
    rw [hlog]
    exact List.mem_cons_of_mem _ List.mem_cons_self
  have hsecond : (1, timeNow 0 stkMask) ∈ s.log := by
    rw [hlog]
    exact List.mem_cons_self
  have hdiff := time_now_exact hrun hfirst hsecond
  exact ⟨s, hrun, hlog, hdiff⟩

end FlashFloppyTestbed
