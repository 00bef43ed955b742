/-
  ConsoleBarrier.lean --- `console_barrier`, and that it returns.

  The barrier notes `prod` and waits for `cons` to get there.  While nothing is printed,
  only the DMA engine and its completion interrupt make steps: each byte handed on is
  one less to go, and each completion is one of the at most three transfers that a
  ring's contents take (`segments`).  They cannot get stuck before the ring is empty, so
  that the barrier returns, in whatever order they come (`console_barrier_returns`).
-/
import FlashFloppyTestbed.ConsoleSync

set_option autoImplicit false

namespace FlashFloppyTestbed

open FlashFloppyTestbed.Foundation

namespace Console

/-- The loop of `console_barrier` is left, which was entered with `prod` at `p`. -/
def barrierPassed (p : BitVec 32) (c : Console) : Bool := decide (p = c.cons)

/-! ## The work that is left -/

/-- The transfers that `n` bytes from a slot on take: two where they go round the end of
the ring. -/
def segments (slot n : Nat) : Nat := if n = 0 then 0 else if slot + n ≤ size then 1 else 2

theorem segments_le (slot n : Nat) : segments slot n ≤ 2 := by
  unfold segments
  split
  · exact Nat.zero_le 2
  · split
    · exact Nat.le_succ 1
    · exact Nat.le_refl 2

/-- A transfer to `prod` or to the end of the ring is one of them. -/
theorem segments_lt {slot n : Nat} (hslot : slot < size) (hn : n < size) (hpos : 0 < n) :
    segments ((slot + min n (size - slot)) % size) (n - min n (size - slot)) < segments slot n := by
  rcases Nat.le_total n (size - slot) with hle | hle
  · rw [Nat.min_eq_left hle, Nat.sub_self, segments, if_pos rfl, segments, if_neg (by omega),
      if_pos (by omega)]
    exact Nat.one_pos
  · rw [Nat.min_eq_right hle, Nat.add_sub_of_le (Nat.le_of_lt hslot), Nat.mod_self]
    unfold segments
    repeat' split
    all_goals omega

/-- The completion interrupts still to come. -/
def transfersLeft (c : Console) : Nat :=
  if c.dmaSz = 0 then 0
  else 1 + segments ((c.cons.toNat + c.dmaSz.toNat) % size) (c.occupancy - c.dmaSz.toNat)

/-- The steps still to come. -/
def work (c : Console) : Nat := c.untransmitted.length + c.transfersLeft

theorem length_untransmitted (c : Console) : c.untransmitted.length = c.occupancy - c.handed :=
  length_window _ _ _ _

theorem work_le (c : Console) : c.work ≤ c.untransmitted.length + 3 := by
  have hle := segments_le ((c.cons.toNat + c.dmaSz.toNat) % size) (c.occupancy - c.dmaSz.toNat)
  rw [work, transfersLeft]
  split <;> omega

theorem toNat_transferSize (c : Console) (hle : c.occupancy ≤ size - 1) :
    (transferSize c.cons c.prod).toNat = min c.occupancy (size - c.cons.toNat % size) := by
  have htoProd : (mask (c.prod - c.cons)).toNat = c.occupancy := by
    rw [toNat_mask]
    exact Nat.mod_eq_of_lt (Nat.lt_of_le_of_lt hle (by decide))
  have htoWrap : (BitVec.ofNat 32 size - mask c.cons).toNat = size - c.cons.toNat % size := by
    have hslot := Nat.mod_lt c.cons.toNat (show 0 < size by decide)
    rw [BitVec.toNat_sub, toNat_mask]
    simp only [size, BitVec.toNat_ofNat] at hslot ⊢
    omega
  simp only [transferSize, BitVec.lt_def, htoProd, htoWrap]
  split
  · rw [htoProd]
    omega
  · rw [htoWrap]
    omega

namespace Queue

variable {accepted : List Byte} {c : Console}

/-- A byte handed on is one less. -/
theorem work_dma (h : c.Queue accepted) (hpos : 0 < c.cndtr) : c.dma.work < c.work := by
  have hcndtr := h.cndtr_le
  have hdma := h.dmaSz_le
  have htransfers : c.dma.transfersLeft = c.transfersLeft := rfl
  have hhanded : c.dma.handed = c.handed + 1 := by
    simp only [handed, Console.dma]
    omega
  have hocc : c.dma.occupancy = c.occupancy := rfl
  rw [work, work, length_untransmitted, length_untransmitted, htransfers, hhanded, hocc]
  simp only [handed]
  omega

/-- A completed transfer is one less, though the next one is started. -/
theorem work_irq (h : c.Queue accepted) (htc : c.tcif = true) : c.irqDma1Ch4Tc.work < c.work := by
  have hzero := h.complete htc
  have hdma := h.dmaSz_le
  have hocc := h.occupancy_le
  have hne : c.dmaSz ≠ 0 := fun hz => by
    rw [h.quiet hz] at htc
    cases htc
  obtain ⟨c', hc'⟩ : ∃ c' : Console,
      c' = { c with en := false, tcif := false, cons := c.cons + c.dmaSz, dmaSz := 0 } := ⟨_, rfl⟩
  have hslot : c'.cons.toNat % size = (c.cons.toNat + c.dmaSz.toNat) % size := by
    rw [hc', BitVec.toNat_add]
    simp only [size]
    omega
  have hocc' : c'.occupancy = c.occupancy - c.dmaSz.toNat := by
    have hlt : c.cons.toNat < 2 ^ 32 := c.cons.isLt
    rw [hc']
    simp only [occupancy, size, BitVec.toNat_sub, BitVec.toNat_add] at hdma hocc ⊢
    omega
  have hwork : c.work = c'.occupancy + (1 + segments (c'.cons.toNat % size) c'.occupancy) := by
    rw [work, length_untransmitted, transfersLeft, if_neg hne, hslot, hocc', handed, hzero,
      Nat.sub_zero]
  have hkick : c.irqDma1Ch4Tc = c'.kickTx := by rw [hc', irqDma1Ch4Tc]
  have hasync : c'.syncConsole = false := by rw [hc', h.async]
  have hidle : c'.dmaSz = 0 := by rw [hc']
  rw [hkick, hwork, Console.kickTx, hasync, if_neg Bool.false_ne_true]
  by_cases hempty : c'.cons = c'.prod
  · have hdone : c'.occupancy = 0 := by
      rw [occupancy, hempty, BitVec.sub_self]
      rfl
    rw [if_neg (fun hand => hand.2 hempty), work, length_untransmitted, transfersLeft, if_pos hidle,
      hdone]
    omega
  · have hpos : 0 < c'.occupancy := by
      rw [Nat.pos_iff_ne_zero]
      exact fun hz => hempty (cons_eq_prod_of_occupancy hz)
    have hsize := toNat_transferSize c' (by omega)
    have hless := segments_lt (Nat.mod_lt c'.cons.toNat (show 0 < size by decide))
      (show c'.occupancy < size by simp only [size] at hocc ⊢; omega) hpos
    rw [← hsize, Nat.mod_add_mod] at hless
    rw [if_pos ⟨hidle, hempty⟩]
    generalize transferSize c'.cons c'.prod = dmaSz at hsize hless ⊢
    have hne' : dmaSz ≠ 0 := fun hz => by
      have hslot' := Nat.mod_lt c'.cons.toNat (show 0 < size by decide)
      rw [hz] at hsize
      simp at hsize
      omega
    rw [work, length_untransmitted, transfersLeft, if_neg hne', handed]
    show c'.occupancy - (dmaSz.toNat - dmaSz.toNat) +
      (1 + segments ((c'.cons.toNat + dmaSz.toNat) % size) (c'.occupancy - dmaSz.toNat)) < _
    omega

/-- The interrupt stores nothing. -/
theorem prod_irq (h : c.Queue accepted) : c.irqDma1Ch4Tc.prod = c.prod := by
  rw [irqDma1Ch4Tc, Console.kickTx, h.async, if_neg Bool.false_ne_true]
  split <;> rfl

end Queue

/-! ## No transfer hangs -/

/-- A transfer that is complete has its interrupt pending. -/
def Armed (c : Console) : Prop := c.dmaSz ≠ 0 → c.cndtr = 0 → c.tcif = true

theorem Armed.kickTx {c : Console} (h : c.Armed) (hasync : c.syncConsole = false) :
    c.kickTx.Armed := by
  rw [Console.kickTx, hasync, if_neg Bool.false_ne_true]
  split
  · intro hne hzero
    simp only at hne hzero
    exact absurd (BitVec.toNat_inj.mp (by simpa using hzero)) hne
  · exact h

end Console

namespace ConsoleRun

variable {s t : ConsoleRun}

theorem armed_step (hinv : s.Inv) (hstep : ConsoleStep s t) (h : s.con.Armed) : t.con.Armed := by
  cases hstep with
  | vprintk => exact h
  | loop hcall =>
    obtain ⟨m, hm⟩ := Option.ne_none_iff_exists'.mp hcall
    have hkick := h.kickTx hinv.queue.async
    simp only [loop, hm]
    split
    · exact hkick
    · split
      · rename_i ch _ _
        simp only [Console.putChar]
        split
        · exact h
        · split <;> exact h
      · exact hkick
  | dma hen hpos =>
    intro _ hzero
    simp only [Console.dma] at hzero ⊢
    rw [if_pos (by omega)]
  | irq _ htc =>
    exact Console.Armed.kickTx (fun hne => absurd rfl hne) hinv.queue.async

/-- What holds between the steps of a run that has never been `Tight`. -/
structure Live (s : ConsoleRun) : Prop where
  inv : s.Inv
  running : s.con.Running
  armed : s.con.Armed

theorem live_of_run {ring : Nat → Byte}
    (hrun : Relation.ReflTransGen (fun s t => ConsoleStep s t ∧ ¬ s.Tight) (init ring) s) :
    s.Live :=
  run_invariant (fun _ _ hstep h => ⟨h.inv.step hstep.1 fun _ => hstep.2,
      running_step h.inv hstep.1 h.running, armed_step h.inv hstep.1 h.armed⟩) hrun
    ⟨Inv.init ring, fun hpos => absurd hpos (Nat.lt_irrefl 0), fun hne => absurd rfl hne⟩

/-- A step of the DMA engine or its interrupt, with no call of `vprintk` in progress. -/
def Background (s t : ConsoleRun) : Prop := ConsoleStep s t ∧ s.call = none ∧ t.call = none

/-- It prints nothing, and leaves less to do. -/
theorem Live.background (h : s.Live) (hstep : Background s t) : t.Live ∧
    t.con.prod = s.con.prod ∧ t.accepted = s.accepted ∧ t.con.work < s.con.work := by
  obtain ⟨hstep, hcall, hcall'⟩ := hstep
  have hloose : ¬ s.Tight := by
    rintro ⟨m, hm, -⟩
    rw [hcall] at hm
    cases hm
  refine ⟨⟨h.inv.step hstep fun _ => hloose, running_step h.inv hstep h.running,
    armed_step h.inv hstep h.armed⟩, ?_⟩
  cases hstep with
  | vprintk => cases hcall'
  | loop hbusy => exact absurd hcall hbusy
  | dma _ hpos => exact ⟨rfl, rfl, h.inv.queue.work_dma hpos⟩
  | irq _ htc => exact ⟨h.inv.queue.prod_irq, rfl, h.inv.queue.work_irq htc⟩

/-- Until `cons` has met `prod` there is a step to make. -/
theorem Live.progress (h : s.Live) (hcall : s.call = none) (hne : s.con.cons ≠ s.con.prod) :
    ∃ t, Background s t := by
  have hbusy : s.con.dmaSz ≠ 0 := fun hz =>
    hne (Console.cons_eq_prod_of_occupancy (h.inv.idle hcall hz))
  rcases Nat.eq_zero_or_pos s.con.cndtr with hzero | hpos
  · exact ⟨_, .irq s hcall (h.armed hbusy hzero), hcall, hcall⟩
  · exact ⟨_, .dma s (h.running hpos) hpos, hcall, hcall⟩

/-- Where they have met, the USART has got everything. -/
theorem Live.sent (h : s.Live) (heq : s.con.cons = s.con.prod) : s.con.sent = s.accepted := by
  have hocc : s.con.occupancy = 0 := by
    rw [Console.occupancy, heq, BitVec.sub_self]
    rfl
  have hsent := h.inv.queue.sent_append
  rwa [Console.untransmitted, hocc, Nat.zero_sub, window_zero, List.append_nil] at hsent

end ConsoleRun

/-- **`console_barrier` returns**, if nothing is printed meanwhile, and everything printed
before has then been handed to the USART.  From any state that a run without a `Tight`
state has reached, the DMA engine and its interrupt make no more steps than there are
bytes to go, and three; wherever they have got, in whatever order, the barrier either is
passed, or there is another step to make. -/
theorem console_barrier_returns (ring : Nat → Byte) (s : ConsoleRun)
    (hrun : Relation.ReflTransGen (fun s t => ConsoleStep s t ∧ ¬ s.Tight)
      (ConsoleRun.init ring) s) (hcall : s.call = none) (n : Nat) (t : ConsoleRun)
    (hsteps : Steps ConsoleRun.Background n s t) :
    n ≤ s.con.untransmitted.length + 3 ∧ s.con.untransmitted.length ≤ Console.size - 1 ∧
      (t.con.barrierPassed s.con.prod = true → t.con.sent = s.accepted) ∧
      (t.con.barrierPassed s.con.prod = false → ∃ u, ConsoleRun.Background t u) := by
  have hlive := ConsoleRun.live_of_run hrun
  obtain ⟨⟨hend, hprod, haccepted, hcall'⟩, hle⟩ := hsteps.le
    (P := fun t => t.Live ∧ t.con.prod = s.con.prod ∧ t.accepted = s.accepted ∧ t.call = none)
    (fun t => t.con.work)
    (fun t u h hstep => by
      obtain ⟨hu, hprod, haccepted, hless⟩ := h.1.background hstep
      exact ⟨⟨hu, hprod.trans h.2.1, haccepted.trans h.2.2.1, hstep.2.2⟩, hless⟩)
    ⟨hlive, rfl, rfl, hcall⟩
  have hwork := s.con.work_le
  have hocc := hlive.inv.queue.occupancy_le
  have hlen := s.con.length_untransmitted
  refine ⟨by omega, by omega, fun hpassed => ?_, fun hwait => ?_⟩
  · have hmet := of_decide_eq_true hpassed
    rw [← haccepted]
    exact hend.sent (hmet.symm.trans hprod.symm)
  · have hmet := of_decide_eq_false hwait
    exact hend.progress hcall' fun heq => hmet (hprod.symm.trans heq.symm)

/-- Two characters wait for the engine, and the barrier for them. -/
theorem console_barrier_returns_two :
    ∃ s t : ConsoleRun, s.con.untransmitted = [0x61, 0x62] ∧
      t.con.barrierPassed s.con.prod = true ∧ t.con.sent = s.accepted := by
  have hloose : ∀ {s : ConsoleRun}, s.con.occupancy ≠ 2046 → ¬ s.Tight := by
    rintro s hne ⟨m, -, -, hocc⟩
    exact hne hocc
  have hrun : Relation.ReflTransGen (fun s t => ConsoleStep s t ∧ ¬ s.Tight)
      (ConsoleRun.init fun _ => 0) _ :=
    .single ⟨ConsoleStep.vprintk _ [0x61, 0x62] rfl (by decide) (by decide), hloose (by decide)⟩
  have hstored := ((hrun.tail ⟨ConsoleStep.loop _ (by decide), hloose (by decide)⟩).tail
    ⟨ConsoleStep.loop _ (by decide), hloose (by decide)⟩).tail
    ⟨ConsoleStep.loop _ (by decide), hloose (by decide)⟩
  obtain ⟨-, -, hsent, -⟩ := console_barrier_returns (fun _ => 0) _ hstored rfl 3 _
    (.succ ⟨ConsoleStep.dma _ (by decide) (by decide), rfl, rfl⟩
      (.succ ⟨ConsoleStep.dma _ (by decide) (by decide), rfl, rfl⟩
        (.succ ⟨ConsoleStep.irq _ rfl (by decide), rfl, rfl⟩ (.zero _))))
  exact ⟨_, _, by decide, by decide, hsent (by decide)⟩

end FlashFloppyTestbed
