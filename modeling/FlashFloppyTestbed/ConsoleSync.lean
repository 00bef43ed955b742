/-
  ConsoleSync.lean --- `console_sync` of `src/console.c`.

  In synchronous mode `kick_tx` hands the queued bytes to the USART itself.  To get
  there, `console_sync` waits until the transfer in flight is through and calls its
  completion handler by hand, so that `cons` moves on over it once: the interrupt of
  that transfer finds `dma_sz` at zero if it comes afterwards.  Nothing is lost or sent
  twice, and every later message is on the wire when its call returns
  (`console_sync_lossless`).
-/
import FlashFloppyTestbed.Console

set_option autoImplicit false

namespace FlashFloppyTestbed

open FlashFloppyTestbed.Foundation

namespace Console

/-- `while (dma1->ch4.cndtr) cpu_relax()`: the engine goes on meanwhile, if it is
enabled. -/
def waitDma : Nat → Console → Console
  | 0, c => c
  | fuel + 1, c => if c.en = true ∧ 0 < c.cndtr then waitDma fuel c.dma else c

/-- `console_sync()`; `none` is a wait that never ends. -/
def consoleSync (c : Console) : Option Console :=
  if c.syncConsole then some c
  else
    let c := waitDma c.cndtr { c with syncConsole := true }
    if c.cndtr = 0 then some c.irqDma1Ch4Tc else none

/-- The bytes between `cons` and `prod`. -/
def stored (c : Console) : List Byte := window c.ring size c.cons.toNat c.occupancy

/-! ## Flushing -/

theorem cons_eq_prod_of_occupancy {c : Console} (h : c.occupancy = 0) : c.cons = c.prod := by
  apply BitVec.eq_of_toNat_eq
  simp only [occupancy, BitVec.toNat_sub] at h
  omega

/-- **The loop of `kick_tx`** sends what is between `cons` and `prod`. -/
theorem flush_eq : ∀ (n : Nat) (c : Console), c.occupancy = n →
    flush n c = { c with cons := c.prod, sent := c.sent ++ window c.ring size c.cons.toNat n }
  | 0, c, h => by
    rw [flush, window_zero, List.append_nil]
    exact congrArg (fun cons => { c with cons := cons }) (cons_eq_prod_of_occupancy h)
  | n + 1, c, h => by
    have hne : c.cons ≠ c.prod := by
      intro heq
      rw [occupancy, heq, BitVec.sub_self] at h
      exact absurd h (by simp)
    have hnext : (c.cons + 1).toNat % size = (c.cons.toNat + 1) % size := by
      rw [BitVec.toNat_add, size]
      simp
    have hocc : occupancy
        { c with cons := c.cons + 1, sent := c.sent ++ [c.ring (mask c.cons).toNat] } = n := by
      simp only [occupancy, BitVec.toNat_sub, BitVec.toNat_add] at h ⊢
      have h1 : (1 : BitVec 32).toNat = 1 := rfl
      omega
    rw [flush, if_pos hne, flush_eq n _ hocc, window_succ,
      ← window_mod c.ring size (c.cons.toNat + 1), ← hnext, window_mod, toNat_mask]
    simp only [List.append_assoc, List.cons_append, List.nil_append]

theorem kickTx_sync {c : Console} (hsync : c.syncConsole = true) :
    c.kickTx = { c with cons := c.prod, sent := c.sent ++ c.stored } := by
  rw [kickTx, if_pos hsync]
  exact flush_eq c.occupancy c rfl

/-! ## Synchronous mode -/

/-- A console in synchronous mode: no transfer is in flight, and what `cons` has not
reached yet is the rest of `accepted`. -/
structure SyncQueue (accepted : List Byte) (c : Console) : Prop where
  sync : c.syncConsole = true
  dmaSz : c.dmaSz = 0
  en : c.en = false
  queue : Queue accepted { c with syncConsole := false }

namespace SyncQueue

variable {accepted : List Byte} {c : Console}

theorem sent_stored (h : c.SyncQueue accepted) : c.sent ++ c.stored = accepted := by
  have hsent := h.queue.sent_append
  have hhanded : handed { c with syncConsole := false } = 0 := by
    simp only [handed, h.dmaSz]
    exact Nat.zero_sub _
  rw [untransmitted, hhanded, Nat.add_zero, Nat.sub_zero] at hsent
  exact hsent

/-- Nothing is left behind when `cons` has met `prod`. -/
theorem sent_eq (h : c.SyncQueue accepted) (hocc : c.occupancy = 0) : c.sent = accepted := by
  have hsent := h.sent_stored
  rwa [stored, hocc, window_zero, List.append_nil] at hsent

/-- `kick_tx` sends everything. -/
theorem kickTx (h : c.SyncQueue accepted) :
    c.kickTx.SyncQueue accepted ∧ c.kickTx.cons = c.kickTx.prod := by
  rw [kickTx_sync h.sync]
  refine ⟨⟨h.sync, h.dmaSz, h.en, ?_⟩, rfl⟩
  have hocc : occupancy { c with
      cons := c.prod, sent := c.sent ++ c.stored, syncConsole := false } = 0 := by
    simp [occupancy]
  have hslot := Nat.mod_lt c.prod.toNat (show 0 < size by decide)
  have hzero : c.dmaSz.toNat = 0 := by rw [h.dmaSz]; rfl
  refine ⟨rfl, by rw [hocc]; exact Nat.zero_le _, by rw [hocc]; exact Nat.le_of_eq hzero,
    h.queue.cndtr_le, fun hne => absurd h.dmaSz hne, ?_, h.queue.complete, h.queue.quiet, ?_⟩
  · show c.prod.toNat % size + c.dmaSz.toNat ≤ size
    omega
  · rw [untransmitted, hocc, Nat.zero_sub, window_zero, List.append_nil]
    exact h.sent_stored

theorem putChar_sync (c : Console) (ch : Byte) (b : Bool) :
    putChar { c with syncConsole := b } ch = { putChar c ch with syncConsole := b } := by
  unfold putChar
  split
  · rfl
  · split <;> rfl

theorem putChar_frame (c : Console) (ch : Byte) :
    (c.putChar ch).syncConsole = c.syncConsole ∧ (c.putChar ch).dmaSz = c.dmaSz ∧
      (c.putChar ch).en = c.en := by
  unfold putChar
  split
  · exact ⟨rfl, rfl, rfl⟩
  · split <;> exact ⟨rfl, rfl, rfl⟩

/-- A character stored well below the limit. -/
theorem putChar (h : c.SyncQueue accepted) (ch : Byte) (hroom : c.occupancy < 2046) :
    (c.putChar ch).SyncQueue (accepted ++ crlf ch) := by
  obtain ⟨hsync, hdma, hen⟩ := putChar_frame c ch
  have hlimit : occupancy { c with syncConsole := false } < size - 1 := Nat.lt_succ_of_lt hroom
  refine ⟨hsync.trans h.sync, hdma.trans h.dmaSz, hen.trans h.en, ?_⟩
  rw [← putChar_sync]
  exact ConsoleRun.putChar_queue h.queue ch hlimit fun _ => Nat.ne_of_lt hroom

end SyncQueue

theorem occupancy_putChar (c : Console) (ch : Byte) (hroom : c.occupancy < 2046) :
    (c.putChar ch).occupancy = c.occupancy + (crlf ch).length := by
  have h1 : (1 : BitVec 32).toNat = 1 := rfl
  unfold putChar crlf
  split
  · rfl
  · split <;> simp only [occupancy, store, BitVec.toNat_sub, BitVec.toNat_add, h1,
      List.length_cons, List.length_nil] at hroom ⊢ <;> omega

/-- The completion handler in synchronous mode, when the engine has nothing left to
do: called by hand or late. -/
theorem Queue.irq_sync {accepted : List Byte} {c : Console}
    (h : Queue accepted { c with syncConsole := false }) (hsync : c.syncConsole = true)
    (hzero : c.cndtr = 0) :
    c.irqDma1Ch4Tc.SyncQueue accepted ∧ c.irqDma1Ch4Tc.cons = c.irqDma1Ch4Tc.prod :=
  SyncQueue.kickTx ⟨hsync, rfl, rfl, h.advance hzero⟩

/-! ## The switch -/

/-- The engine does not look at `sync_console`. -/
theorem waitDma_sync (b : Bool) : ∀ (n : Nat) (c : Console),
    waitDma n { c with syncConsole := b } = { waitDma n c with syncConsole := b }
  | 0, _ => rfl
  | n + 1, c => by
    rw [waitDma, waitDma]
    split
    · exact waitDma_sync b n c.dma
    · rfl

/-- The engine is enabled while it has something to do. -/
def Running (c : Console) : Prop := 0 < c.cndtr → c.en = true

theorem Running.kickTx {c : Console} (h : c.Running) (hasync : c.syncConsole = false) :
    c.kickTx.Running := by
  rw [Console.kickTx, hasync, if_neg Bool.false_ne_true]
  split
  · exact fun _ => rfl
  · exact h

/-- The wait is for the rest of the transfer. -/
theorem Queue.waitDma {accepted : List Byte} : ∀ (n : Nat) {c : Console}, c.Queue accepted →
    c.Running → c.cndtr = n → (waitDma n c).Queue accepted ∧ (Console.waitDma n c).cndtr = 0
  | 0, _, h, _, hn => ⟨h, hn⟩
  | n + 1, c, h, hrun, hn => by
    have hpos : 0 < c.cndtr := by omega
    have hdma : c.dma.cndtr = n := by
      simp only [Console.dma]
      omega
    rw [Console.waitDma, if_pos ⟨hrun hpos, hpos⟩]
    exact Queue.waitDma n (h.dma hpos) (fun _ => hrun hpos) hdma

/-- **`console_sync`** ends, with everything sent that was accepted. -/
theorem Queue.consoleSync {accepted : List Byte} {c : Console} (h : c.Queue accepted)
    (hrun : c.Running) :
    ∃ c', c.consoleSync = some c' ∧ c'.SyncQueue accepted ∧ c'.cons = c'.prod := by
  obtain ⟨hq, hzero⟩ := h.waitDma _ hrun rfl
  rw [Console.consoleSync, h.async, if_neg Bool.false_ne_true, waitDma_sync]
  generalize Console.waitDma c.cndtr c = b at hq hzero
  have hsync : b = { b with syncConsole := false } :=
    congrArg (fun sync => { b with syncConsole := sync }) hq.async
  rw [hsync] at hq
  exact ⟨_, if_pos hzero, Queue.irq_sync (c := { b with syncConsole := true }) hq rfl hzero⟩

end Console

/-! ## Runs -/

theorem length_crlf_le (ch : Byte) : (crlf ch).length ≤ 2 := by
  unfold crlf
  split
  · exact Nat.zero_le 2
  · split
    · exact Nat.le_refl 2
    · exact Nat.le_succ 1

/-- A message is at most doubled. -/
theorem Message.length_accepted_le (m : Message) : m.accepted.length ≤ 2 * m.text.length := by
  have hdouble : ∀ text : List Byte, (text.flatMap crlf).length ≤ 2 * text.length := by
    intro text
    induction text with
    | nil => exact Nat.le_refl 0
    | cons ch text ih =>
      have hch := length_crlf_le ch
      simp only [List.flatMap_cons, List.length_append, List.length_cons]
      omega
  have htake := hdouble (m.text.take m.passed)
  have hlen := List.length_take_le' m.passed m.text
  simp only [accepted]
  omega

namespace ConsoleRun

variable {s t : ConsoleRun}

theorem running_step (hinv : s.Inv) (hstep : ConsoleStep s t) (h : s.con.Running) :
    t.con.Running := by
  cases hstep with
  | vprintk => exact h
  | loop hcall =>
    obtain ⟨m, hm⟩ := Option.ne_none_iff_exists'.mp hcall
    have hkick := h.kickTx hinv.queue.async
    simp only [loop, hm]
    split
    · exact hkick
    · split
      · rename_i ch _ _
        simp only [Console.putChar]
        split
        · exact h
        · split <;> exact h
      · exact hkick
  | dma hen _ => exact fun _ => hen
  | irq _ htc =>
    have hzero := hinv.queue.complete htc
    refine Console.Running.kickTx (fun hpos => ?_) hinv.queue.async
    exact absurd hzero (Nat.ne_of_gt hpos)

/-- A run that is never over the limit keeps the ring a queue. -/
theorem inv_of_within {ring : Nat → Byte}
    (hrun : Relation.ReflTransGen
      (fun s t => ConsoleStep s t ∧ t.con.occupancy ≤ Console.size - 1) (init ring) s) :
    s.Inv ∧ s.con.Running := by
  refine run_invariant (P := fun s => s.Inv ∧ s.con.Running) (fun s t hstep h => ?_) hrun
    ⟨Inv.init ring, fun hpos => absurd hpos (Nat.lt_irrefl 0)⟩
  refine ⟨h.1.step hstep.1 fun hloop htight => ?_, running_step h.1 hstep.1 h.2⟩
  have hover := loop_of_tight htight
  rw [← hloop] at hover
  have hle := hstep.2
  rw [hover] at hle
  exact absurd hle (by decide)

/-- One step after `console_sync`.  The completion interrupt of the transfer that
`console_sync` has waited for may still come, whenever interrupts are enabled. -/
def LateStep (s t : ConsoleRun) : Prop :=
  ConsoleStep s t ∨ s.call = none ∧ t = { s with con := s.con.irqDma1Ch4Tc }

/-- What holds between the steps that follow `console_sync`, with `base` sent before. -/
structure SyncInv (base : List Byte) (s : ConsoleRun) : Prop where
  queue : s.con.SyncQueue (base ++ s.accepted)
  occupancy_eq : s.con.occupancy = (s.call.elim [] Message.accepted).length
  short : ∀ m, s.call = some m → m.text.length ≤ 127 ∧ m.passed ≤ m.text.length
  whole : ∀ m ∈ s.calls, m.1.passed = m.1.text.length

variable {base : List Byte}

theorem SyncInv.finish (h : s.SyncInv base) {m : Message} (hcall : s.call = some m)
    (hend : m.text[m.passed]? = none) : (s.finish m).SyncInv base := by
  obtain ⟨hkick, hmet⟩ := h.queue.kickTx
  have haccepted : (s.finish m).accepted = s.accepted := by
    simp [accepted, ConsoleRun.finish, hcall]
  refine ⟨by rw [haccepted]; exact hkick, ?_, ?_, ?_⟩
  · show (s.con.kickTx.prod - s.con.kickTx.cons).toNat = 0
    rw [hmet, BitVec.sub_self]
    rfl
  · intro m' hm'
    cases hm'
  · intro m' hm'
    rcases List.mem_append.mp hm' with hm' | hm'
    · exact h.whole m' hm'
    · rw [List.mem_singleton.mp hm']
      exact Nat.le_antisymm (h.short m hcall).2 (List.getElem?_eq_none_iff.mp hend)

/-- An iteration of the loop of `vprintk`: a message of 127 characters never fills the
ring, which is empty when the call begins. -/
theorem SyncInv.loop (h : s.SyncInv base) (hcall : s.call ≠ none) : s.loop.SyncInv base := by
  obtain ⟨m, hm⟩ := Option.ne_none_iff_exists'.mp hcall
  obtain ⟨hlen, -⟩ := h.short m hm
  have hocc : s.con.occupancy = m.accepted.length := by
    have hocc := h.occupancy_eq
    rwa [hm] at hocc
  have hle := m.length_accepted_le
  simp only [ConsoleRun.loop, hm]
  split
  · rename_i hend
    exact h.finish hm hend
  · rename_i ch hch
    have hroom : s.con.prod - s.con.cons ≠ BitVec.ofNat 32 (Console.size - 1) := by
      rw [room_iff, Console.size]
      omega
    have hq := h.queue.putChar ch (by omega)
    have haccepted : s.accepted ++ crlf ch = ConsoleRun.accepted
        { s with con := s.con.putChar ch, call := some { m with passed := m.passed + 1 } } := by
      simp only [accepted, hm, Option.elim, accepted_pass hch, List.append_assoc]
    obtain ⟨hlt, -⟩ := List.getElem?_eq_some_iff.mp hch
    rw [if_pos hroom]
    refine ⟨by rw [← haccepted, ← List.append_assoc]; exact hq, ?_, ?_, h.whole⟩
    · show (s.con.putChar ch).occupancy = (Message.accepted _).length
      rw [accepted_pass hch, List.length_append, ← hocc]
      exact Console.occupancy_putChar s.con ch (by omega)
    · intro m' hm'
      cases hm'
      exact ⟨hlen, hlt⟩

/-- The completion interrupt finds nothing to do. -/
theorem SyncInv.irq (h : s.SyncInv base) (hcall : s.call = none) :
    SyncInv base { s with con := s.con.irqDma1Ch4Tc } := by
  have hzero : s.con.cndtr = 0 := by
    have hle := h.queue.queue.cndtr_le
    rw [show s.con.dmaSz = 0 from h.queue.dmaSz] at hle
    exact Nat.le_zero.mp hle
  obtain ⟨hkick, hmet⟩ := h.queue.queue.irq_sync h.queue.sync hzero
  refine ⟨hkick, ?_, fun m hm => ?_, h.whole⟩
  · rw [hcall]
    show (s.con.irqDma1Ch4Tc.prod - s.con.irqDma1Ch4Tc.cons).toNat = 0
    rw [hmet, BitVec.sub_self]
    rfl
  · rw [hcall] at hm
    cases hm

theorem SyncInv.step (hstep : LateStep s t) (h : s.SyncInv base) : t.SyncInv base := by
  obtain hstep | ⟨hcall, rfl⟩ := hstep
  · cases hstep with
    | vprintk text hcall hlen _ =>
      have haccepted : ConsoleRun.accepted { s with call := some ⟨text, 0⟩ } = s.accepted := by
        simp [accepted, hcall, Message.accepted]
      refine ⟨by rw [haccepted]; exact h.queue, ?_, ?_, h.whole⟩
      · have hocc := h.occupancy_eq
        rw [hcall] at hocc
        exact hocc
      · intro m hm
        cases hm
        exact ⟨hlen, Nat.zero_le _⟩
    | loop hcall => exact h.loop hcall
    | dma hen _ =>
      rw [h.queue.en] at hen
      cases hen
    | irq hcall _ => exact h.irq hcall
  · exact h.irq hcall

/-- Between the calls everything they were given is on the wire. -/
theorem SyncInv.sent (h : s.SyncInv base) (hcall : s.call = none) :
    s.con.sent = base ++ s.calls.flatMap (fun m => m.1.text.flatMap crlf) ∧
      s.con.cons = s.con.prod := by
  have hocc := h.occupancy_eq
  rw [hcall] at hocc
  have haccepted : s.accepted = s.calls.flatMap (fun m => m.1.text.flatMap crlf) := by
    rw [accepted, hcall, Option.elim, List.append_nil]
    refine List.flatMap_congr fun m hm => ?_
    rw [Message.accepted, h.whole m hm, List.take_length]
  exact ⟨by rw [← haccepted]; exact h.queue.sent_eq hocc,
    Console.cons_eq_prod_of_occupancy hocc⟩

end ConsoleRun

/-- **Switching to synchronous mode loses nothing.**  After any run that was never over
the limit, `console_sync` ends, having sent the bytes still queued behind those already
on the wire; whatever calls and late completion interrupts follow, all the text of the
completed calls is on the wire. -/
theorem console_sync_lossless (ring : Nat → Byte) (s : ConsoleRun)
    (hrun : Relation.ReflTransGen
      (fun s t => ConsoleStep s t ∧ t.con.occupancy ≤ Console.size - 1)
      (ConsoleRun.init ring) s) :
    ∃ c, s.con.consoleSync = some c ∧ c.sent = s.con.sent ++ s.con.untransmitted ∧
      c.cons = c.prod ∧ c.dmaSz = 0 ∧
      ∀ t, Relation.ReflTransGen ConsoleRun.LateStep ⟨c, none, []⟩ t → t.call = none →
        t.con.sent = c.sent ++ t.calls.flatMap (fun m => m.1.text.flatMap crlf) ∧
          t.con.cons = t.con.prod ∧ t.con.dmaSz = 0 := by
  obtain ⟨hinv, hrunning⟩ := ConsoleRun.inv_of_within hrun
  obtain ⟨c, hc, hq, hmet⟩ := hinv.queue.consoleSync hrunning
  have hocc : c.occupancy = 0 := by
    rw [Console.occupancy, hmet, BitVec.sub_self]
    rfl
  have hsent := hq.sent_eq hocc
  refine ⟨c, hc, hsent.trans hinv.queue.sent_append.symm, hmet, hq.dmaSz, fun t hlate hcall => ?_⟩
  have hstart : ConsoleRun.SyncInv c.sent ⟨c, none, []⟩ := by
    refine ⟨?_, hocc, ?_, ?_⟩
    · rw [← hsent] at hq
      simpa [ConsoleRun.accepted] using hq
    · intro m hm
      cases hm
    · intro m hm
      cases hm
  have hend := run_invariant (fun _ _ hstep h => ConsoleRun.SyncInv.step hstep h) hlate hstart
  obtain ⟨hall, hmet'⟩ := hend.sent hcall
  exact ⟨hall, hmet', hend.queue.dmaSz⟩

/-- Two characters, of which the engine has handed on the first. -/
theorem console_sync_lossless_half_sent :
    ∃ (s : ConsoleRun) (c : Console), s.con.sent = [0x61] ∧ s.con.consoleSync = some c ∧
      c.sent = [0x61, 0x62] := by
  have hrun : Relation.ReflTransGen
      (fun s t => ConsoleStep s t ∧ t.con.occupancy ≤ Console.size - 1)
      (ConsoleRun.init fun _ => 0) _ :=
    .single ⟨ConsoleStep.vprintk _ [0x61, 0x62] rfl (by decide) (by decide), by decide⟩
  have hstored := (hrun.tail ⟨ConsoleStep.loop _ (by decide), by decide⟩).tail
    ⟨ConsoleStep.loop _ (by decide), by decide⟩
  have hhanded := (hstored.tail ⟨ConsoleStep.loop _ (by decide), by decide⟩).tail
    ⟨ConsoleStep.dma _ (by decide) (by decide), by decide⟩
  obtain ⟨c, hc, hsent, -⟩ := console_sync_lossless (fun _ => 0) _ hhanded
  exact ⟨_, c, by decide, hc, hsent.trans (by decide)⟩

end FlashFloppyTestbed
