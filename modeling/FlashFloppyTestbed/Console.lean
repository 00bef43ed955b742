/-
  Console.lean --- `src/console.c`: the serial console's transmit ring.

  `vprintk` stores characters behind `prod` with interrupts disabled; the DMA
  engine hands bytes to the USART from `cons` on; `IRQ_dma1_ch4_tc` moves `cons`
  only when a whole transfer is complete.  A run interleaves the iterations of
  `vprintk`'s loop, single byte transfers, and completion interrupts.

  The full test of that loop is an equality made once per character, and a line
  feed stores two bytes.  A line feed met with exactly 2046 bytes queued
  therefore steps over the limit (`Tight`): the ring then holds 2048 bytes, the
  test no longer stops anything, and `MASK(prod-cons)` is zero.  In every run
  that avoids this state the ring is a faithful queue (`console_fifo`).
-/
import FlashFloppyTestbed.Memory
import FlashFloppyTestbed.Foundation.Ring
import FlashFloppyTestbed.Foundation.Run

set_option autoImplicit false

namespace FlashFloppyTestbed

open FlashFloppyTestbed.Foundation

/-- The static data of `console.c`, DMA1 channel 4, and the USART. -/
structure Console where
  ring : Nat → Byte
  cons : BitVec 32
  prod : BitVec 32
  dmaSz : BitVec 32
  syncConsole : Bool
  /-- `dma1->ch4.cmar`, as an index into `ring` -/
  cmar : Nat
  /-- `dma1->ch4.cndtr` -/
  cndtr : Nat
  /-- `dma1->ch4.ccr & DMA_CCR_EN` -/
  en : Bool
  /-- the channel's transfer-complete flag -/
  tcif : Bool
  /-- the bytes written to `usart1->dr` -/
  sent : List Byte

namespace Console

/-- `sizeof(ring)`. -/
def size : Nat := 2048

/-- `MASK(x)`. -/
def mask (x : BitVec 32) : BitVec 32 := x &&& 2047#32

/-- The state `console_init` leaves, with whatever `ring` holds. -/
def init (ring : Nat → Byte) : Console where
  ring := ring
  cons := 0
  prod := 0
  dmaSz := 0
  syncConsole := false
  cmar := 0
  cndtr := 0
  en := false
  tcif := false
  sent := []

/-- The loop of `kick_tx` in synchronous mode; it ends when `cons` meets `prod`. -/
def flush : Nat → Console → Console
  | 0, c => c
  | fuel + 1, c =>
      if c.cons ≠ c.prod then
        flush fuel
          { c with cons := c.cons + 1, sent := c.sent ++ [c.ring (mask c.cons).toNat] }
      else c

/-- `min(MASK(prod-cons), sizeof(ring)-MASK(cons))`. -/
def transferSize (cons prod : BitVec 32) : BitVec 32 :=
  let toProd := mask (prod - cons)
  let toWrap := BitVec.ofNat 32 size - mask cons
  if toProd < toWrap then toProd else toWrap

/-- `kick_tx()`. -/
def kickTx (c : Console) : Console :=
  if c.syncConsole then flush (c.prod - c.cons).toNat c
  else if c.dmaSz = 0 ∧ c.cons ≠ c.prod then
    { c with
      dmaSz := transferSize c.cons c.prod
      cmar := (mask c.cons).toNat
      cndtr := (transferSize c.cons c.prod).toNat
      en := true }
  else c

/-- `IRQ_dma1_ch4_tc()`. -/
def irqDma1Ch4Tc (c : Console) : Console :=
  kickTx { c with en := false, tcif := false, cons := c.cons + c.dmaSz, dmaSz := 0 }

/-- The DMA engine hands one byte to the USART. -/
def dma (c : Console) : Console :=
  { c with
    sent := c.sent ++ [c.ring c.cmar]
    cmar := c.cmar + 1
    cndtr := c.cndtr - 1
    tcif := if c.cndtr = 1 then true else c.tcif }

/-- `ring[MASK(prod++)] = v`. -/
def store (c : Console) (v : Byte) : Console :=
  { c with ring := Function.update c.ring (mask c.prod).toNat v, prod := c.prod + 1 }

/-- The body of `vprintk`'s loop. -/
def putChar (c : Console) (ch : Byte) : Console :=
  if ch = 0x0d then c
  else if ch = 0x0a then (c.store 0x0d).store 0x0a
  else c.store ch

/-- `prod - cons`. -/
def occupancy (c : Console) : Nat := (c.prod - c.cons).toNat

/-- The bytes of the transfer in flight that the USART has got. -/
def handed (c : Console) : Nat := c.dmaSz.toNat - c.cndtr

/-- The bytes stored and not yet handed to the USART. -/
def untransmitted (c : Console) : List Byte :=
  window c.ring size (c.cons.toNat + c.handed) (c.occupancy - c.handed)

end Console

/-- What a character of a message puts on the wire. -/
def crlf (ch : Byte) : List Byte :=
  if ch = 0x0d then [] else if ch = 0x0a then [0x0d, 0x0a] else [ch]

/-- A call of `vprintk`: the formatted text, and how many of its characters the
loop has passed. -/
structure Message where
  text : List Byte
  passed : Nat
  deriving DecidableEq

namespace Message

/-- The bytes the call has accepted. -/
def accepted (m : Message) : List Byte := (m.text.take m.passed).flatMap crlf

end Message

/-- A run of the console: the call in progress, and the completed calls, each with
the occupancy of the ring at its end. -/
structure ConsoleRun where
  con : Console
  call : Option Message
  calls : List (Message × Nat)

namespace ConsoleRun

/-- The console starts. -/
def init (ring : Nat → Byte) : ConsoleRun where
  con := Console.init ring
  call := none
  calls := []

/-- The loop of `vprintk` is left. -/
def finish (s : ConsoleRun) (m : Message) : ConsoleRun where
  con := s.con.kickTx
  call := none
  calls := s.calls ++ [(m, s.con.occupancy)]

/-- The loop of `vprintk` is at its test: one iteration, or its exit. -/
def loop (s : ConsoleRun) : ConsoleRun :=
  match s.call with
  | none => s
  | some m =>
      match m.text[m.passed]? with
      | none => s.finish m
      | some ch =>
          if s.con.prod - s.con.cons ≠ BitVec.ofNat 32 (Console.size - 1) then
            { s with con := s.con.putChar ch, call := some { m with passed := m.passed + 1 } }
          else s.finish m

/-- The bytes accepted by all calls so far, in order. -/
def accepted (s : ConsoleRun) : List Byte :=
  s.calls.flatMap (fun m => m.1.accepted) ++ s.call.elim [] Message.accepted

/-- The loop of `vprintk` is about to store a line feed as the 2047th byte. -/
def Tight (s : ConsoleRun) : Prop :=
  ∃ m, s.call = some m ∧ m.text[m.passed]? = some 0x0a ∧ s.con.occupancy = 2046

end ConsoleRun

/-- One step of the console.  Interrupts are disabled during a call, the DMA
engine is not. -/
inductive ConsoleStep : ConsoleRun → ConsoleRun → Prop where
  | vprintk (s : ConsoleRun) (text : List Byte) : s.call = none → text.length ≤ 127 →
      0 ∉ text → ConsoleStep s { s with call := some ⟨text, 0⟩ }
  | loop (s : ConsoleRun) : s.call ≠ none → ConsoleStep s s.loop
  | dma (s : ConsoleRun) : s.con.en = true → 0 < s.con.cndtr →
      ConsoleStep s { s with con := s.con.dma }
  | irq (s : ConsoleRun) : s.call = none → s.con.tcif = true →
      ConsoleStep s { s with con := s.con.irqDma1Ch4Tc }

/-- The ring is a faithful queue: it is never over its limit, what the USART has
got and what is still queued are together what the calls have accepted, nothing
is left behind when the engine is idle, and a call drops only the end of its
message, on a full ring. -/
structure ConsoleRun.Faithful (s : ConsoleRun) : Prop where
  occupancy_le : s.con.occupancy ≤ Console.size - 1
  sent_append : s.con.sent ++ s.con.untransmitted = s.accepted
  idle : s.call = none → s.con.dmaSz = 0 → s.con.sent = s.accepted
  dropped : ∀ m ∈ s.calls, m.1.passed < m.1.text.length → m.2 = Console.size - 1

/-! ## The ring as a queue -/

namespace Console

theorem toNat_mask (x : BitVec 32) : (mask x).toNat = x.toNat % size := by
  rw [mask, BitVec.toNat_and]
  exact Nat.and_two_pow_sub_one_eq_mod x.toNat 11

/-- Where `prod` points. -/
theorem prod_slot (c : Console) : c.prod.toNat % size = (c.cons.toNat + c.occupancy) % size := by
  simp only [occupancy, BitVec.toNat_sub, size]
  omega

/-- A transfer ends at `prod` or at the end of the ring, and is not empty unless
the ring is. -/
theorem transferSize_spec (c : Console) (hle : c.occupancy ≤ size - 1) (hpos : 0 < c.occupancy) :
    0 < (transferSize c.cons c.prod).toNat ∧
      (transferSize c.cons c.prod).toNat ≤ c.occupancy ∧
      c.cons.toNat % size + (transferSize c.cons c.prod).toNat ≤ size := by
  have htoProd : (mask (c.prod - c.cons)).toNat = c.occupancy := by
    rw [toNat_mask]
    exact Nat.mod_eq_of_lt (by simp only [size, occupancy] at *; omega)
  have htoWrap : (BitVec.ofNat 32 size - mask c.cons).toNat = size - c.cons.toNat % size := by
    rw [BitVec.toNat_sub, toNat_mask]
    simp only [size, BitVec.toNat_ofNat]
    omega
  have hslot := Nat.mod_lt c.cons.toNat (show 0 < size by decide)
  simp only [transferSize, BitVec.lt_def, htoProd, htoWrap]
  split
  · rw [htoProd]
    omega
  · rw [htoWrap]
    omega

/-- The ring holds what `accepted` has beyond the bytes sent, and the transfer in
flight is the front of it. -/
structure Queue (accepted : List Byte) (c : Console) : Prop where
  async : c.syncConsole = false
  occupancy_le : c.occupancy ≤ size - 1
  dmaSz_le : c.dmaSz.toNat ≤ c.occupancy
  cndtr_le : c.cndtr ≤ c.dmaSz.toNat
  cmar_eq : c.dmaSz ≠ 0 → c.cmar = c.cons.toNat % size + c.handed
  wrap_le : c.cons.toNat % size + c.dmaSz.toNat ≤ size
  complete : c.tcif = true → c.cndtr = 0
  quiet : c.dmaSz = 0 → c.tcif = false
  sent_append : c.sent ++ c.untransmitted = accepted

namespace Queue

variable {accepted : List Byte} {c : Console}

theorem handed_le (h : c.Queue accepted) : c.handed ≤ c.occupancy := by
  have := h.dmaSz_le
  simp only [handed]
  omega

/-- A byte stored below the limit is queued. -/
theorem store (h : c.Queue accepted) (v : Byte) (hroom : c.occupancy < size - 1) :
    (c.store v).Queue (accepted ++ [v]) ∧ (c.store v).occupancy = c.occupancy + 1 := by
  have hle := h.handed_le
  have hdma := h.dmaSz_le
  have hocc : (c.store v).occupancy = c.occupancy + 1 := by
    have h1 : (1 : BitVec 32).toNat = 1 := rfl
    simp only [occupancy, size] at hroom
    simp only [Console.store, occupancy, BitVec.toNat_sub, BitVec.toNat_add, h1] at hroom ⊢
    omega
  refine ⟨⟨h.async, by omega, ?_, h.cndtr_le, h.cmar_eq, h.wrap_le, h.complete, h.quiet,
    ?_⟩, hocc⟩
  · rw [hocc]
    exact Nat.le_succ_of_le h.dmaSz_le
  · have hslot : (mask c.prod).toNat =
        ((c.cons.toNat + c.handed) + (c.occupancy - c.handed)) % size := by
      rw [toNat_mask, prod_slot]
      congr 1
      omega
    have huntransmitted : (c.store v).untransmitted = c.untransmitted ++ [v] := by
      have hhanded : (c.store v).handed = c.handed := rfl
      rw [untransmitted, hocc, hhanded, Nat.sub_add_comm hle]
      simp only [Console.store, hslot]
      exact window_update c.ring v (by simp only [size] at hroom ⊢; omega)
    rw [huntransmitted, ← h.sent_append, List.append_assoc]
    rfl

/-- The engine hands on the oldest queued byte. -/
theorem dma (h : c.Queue accepted) (hpos : 0 < c.cndtr) : c.dma.Queue accepted := by
  have hle := h.handed_le
  have hdma := h.dmaSz_le
  have hcndtr := h.cndtr_le
  have hwrap := h.wrap_le
  have hne : c.dmaSz ≠ 0 := by
    intro hz
    rw [hz] at hcndtr
    simp at hcndtr
    omega
  have hhanded : c.dma.handed = c.handed + 1 := by
    simp only [handed, Console.dma]
    omega
  have hcmar := h.cmar_eq hne
  have hlt : c.handed < c.dmaSz.toNat := by
    simp only [handed]
    omega
  refine ⟨h.async, h.occupancy_le, h.dmaSz_le, ?_, fun _ => ?_, h.wrap_le, ?_,
    fun hz => absurd hz hne, ?_⟩
  · simp only [Console.dma]
    omega
  · rw [hhanded]
    simp only [Console.dma, hcmar]
    omega
  · intro htc
    simp only [Console.dma] at htc ⊢
    split at htc
    · omega
    · have := h.complete htc
      omega
  · have hslot : c.cmar = (c.cons.toNat + c.handed) % size := by
      rw [hcmar]
      simp only [size] at hwrap ⊢
      omega
    have huntransmitted : c.untransmitted = c.ring c.cmar :: c.dma.untransmitted := by
      have hocc : c.dma.occupancy = c.occupancy := rfl
      rw [untransmitted, untransmitted, hhanded, hocc, hslot,
        show c.occupancy - c.handed = (c.occupancy - (c.handed + 1)) + 1 by omega, window_succ]
      rfl
    rw [← h.sent_append, huntransmitted]
    simp [Console.dma]

/-- Nothing is sent by starting a transfer, and none is left out if there is
something to send. -/
theorem kickTx (h : c.Queue accepted) :
    c.kickTx.Queue accepted ∧ c.kickTx.occupancy = c.occupancy ∧
      (c.kickTx.dmaSz = 0 → c.occupancy = 0) := by
  rw [Console.kickTx, h.async, if_neg Bool.false_ne_true]
  by_cases hidle : c.dmaSz = 0 ∧ c.cons ≠ c.prod
  · have hhanded : c.handed = 0 := by simp [handed, hidle.1]
    have hpos : 0 < c.occupancy := by
      rw [Nat.pos_iff_ne_zero]
      intro hz
      apply hidle.2
      apply BitVec.eq_of_toNat_eq
      simp only [occupancy, BitVec.toNat_sub] at hz
      omega
    obtain ⟨hsize, hprod, hwrap⟩ := transferSize_spec c h.occupancy_le hpos
    rw [if_pos hidle]
    generalize transferSize c.cons c.prod = dmaSz at *
    have hne : dmaSz ≠ 0 := by
      intro hz
      rw [hz] at hsize
      exact absurd hsize (by simp)
    refine ⟨⟨rfl, h.occupancy_le, hprod, Nat.le_refl _, fun _ => ?_, hwrap, ?_,
      fun hz => absurd hz hne, ?_⟩, rfl, fun hz => absurd hz hne⟩
    · simp only [handed, toNat_mask, Nat.sub_self, Nat.add_zero]
    · intro htc
      simp only [h.quiet hidle.1, Bool.false_eq_true] at htc
    · have hun := h.sent_append
      rw [untransmitted, hhanded] at hun
      show c.sent ++ window c.ring size (c.cons.toNat + (dmaSz.toNat - dmaSz.toNat))
        (c.occupancy - (dmaSz.toNat - dmaSz.toNat)) = accepted
      rw [Nat.sub_self]
      exact hun
  · rw [if_neg hidle]
    refine ⟨h, rfl, fun hz => ?_⟩
    have heq : c.cons = c.prod := by
      by_contra hne
      exact hidle ⟨hz, hne⟩
    simp [occupancy, heq]

/-- `cons += dma_sz; dma_sz = 0`, with the channel cleared. -/
theorem advance (h : c.Queue accepted) (hzero : c.cndtr = 0) :
    Queue accepted
      { c with en := false, tcif := false, cons := c.cons + c.dmaSz, dmaSz := 0 } := by
  have hdma := h.dmaSz_le
  have hocc := h.occupancy_le
  have hhanded : c.handed = c.dmaSz.toNat := by simp [handed, hzero]
  have hlt : c.cons.toNat < 2 ^ 32 := c.cons.isLt
  let c' : Console := { c with en := false, tcif := false, cons := c.cons + c.dmaSz, dmaSz := 0 }
  have hocc' : c'.occupancy = c.occupancy - c.dmaSz.toNat := by
    simp only [c', occupancy, size, BitVec.toNat_sub, BitVec.toNat_add] at hdma hocc ⊢
    omega
  have hhanded' : c'.handed = 0 := by simp [c', handed]
  have hun : c'.untransmitted = c.untransmitted := by
    have hslot : (c.cons + c.dmaSz).toNat % size = (c.cons.toNat + c.dmaSz.toNat) % size := by
      rw [BitVec.toNat_add]
      simp only [size]
      omega
    rw [untransmitted, untransmitted, hhanded, hhanded', hocc', Nat.add_zero, Nat.sub_zero,
      ← window_mod c.ring size (c.cons.toNat + c.dmaSz.toNat), ← hslot, window_mod]
  have hle : c'.occupancy ≤ size - 1 := by omega
  refine ⟨h.async, hle, Nat.zero_le _, by simp [hzero], fun hne => absurd rfl hne, ?_,
    fun _ => hzero, fun _ => rfl, ?_⟩
  · have := Nat.mod_lt (c.cons + c.dmaSz).toNat (show 0 < size by decide)
    exact Nat.le_of_lt this
  · show c'.sent ++ c'.untransmitted = accepted
    rw [hun]
    exact h.sent_append

/-- A completed transfer leaves the queue. -/
theorem irq (h : c.Queue accepted) (htc : c.tcif = true) :
    c.irqDma1Ch4Tc.Queue accepted ∧ (c.irqDma1Ch4Tc.dmaSz = 0 →
      c.irqDma1Ch4Tc.occupancy = 0) := by
  obtain ⟨hkick, hsame, hempty⟩ := (h.advance (h.complete htc)).kickTx
  exact ⟨hkick, fun hz => hsame.trans (hempty hz)⟩

end Queue

end Console

/-! ## Runs -/

namespace ConsoleRun

/-- What holds between the steps of a run that has never been `Tight`. -/
structure Inv (s : ConsoleRun) : Prop where
  queue : s.con.Queue s.accepted
  idle : s.call = none → s.con.dmaSz = 0 → s.con.occupancy = 0
  dropped : ∀ m ∈ s.calls, m.1.passed < m.1.text.length → m.2 = Console.size - 1

variable {s t : ConsoleRun}

theorem Inv.faithful (h : s.Inv) : s.Faithful where
  occupancy_le := h.queue.occupancy_le
  sent_append := h.queue.sent_append
  idle := fun hcall hdma => by
    have hempty : s.con.untransmitted = [] := by
      rw [Console.untransmitted, h.idle hcall hdma, Nat.zero_sub, window_zero]
    have hsent := h.queue.sent_append
    rwa [hempty, List.append_nil] at hsent
  dropped := h.dropped

theorem Inv.init (ring : Nat → Byte) : (ConsoleRun.init ring).Inv where
  queue :=
    { async := rfl
      occupancy_le := by simp [ConsoleRun.init, Console.init, Console.occupancy]
      dmaSz_le := Nat.zero_le _, cndtr_le := Nat.le_refl _
      cmar_eq := fun hne => absurd rfl hne, wrap_le := Nat.zero_le _
      complete := fun _ => rfl, quiet := fun _ => rfl
      sent_append := by
        simp [ConsoleRun.init, Console.init, Console.untransmitted, Console.occupancy, accepted] }
  idle := fun _ _ => by simp [ConsoleRun.init, Console.init, Console.occupancy]
  dropped := fun m hm => by cases hm

/-- Passing a character accepts what it puts on the wire. -/
theorem accepted_pass {m : Message} {ch : Byte} (hch : m.text[m.passed]? = some ch) :
    Message.accepted { m with passed := m.passed + 1 } = m.accepted ++ crlf ch := by
  obtain ⟨hlt, hget⟩ := List.getElem?_eq_some_iff.mp hch
  simp only [Message.accepted]
  rw [List.take_succ_eq_append_getElem hlt, List.flatMap_append, hget]
  simp

/-- A character that fits, with its carriage return, is queued. -/
theorem putChar_queue {c : Console} {accepted : List Byte} (h : c.Queue accepted) (ch : Byte)
    (hroom : c.occupancy < Console.size - 1) (hlf : ch = 0x0a → c.occupancy ≠ 2046) :
    (c.putChar ch).Queue (accepted ++ crlf ch) := by
  have hsize : Console.size = 2048 := rfl
  unfold Console.putChar crlf
  split
  · rwa [List.append_nil]
  · split
    · rename_i heq
      obtain ⟨h₁, hocc⟩ := h.store 0x0d hroom
      have := hlf heq
      have h₂ := (h₁.store 0x0a (by omega)).1
      rwa [List.append_assoc] at h₂
    · exact (h.store ch hroom).1

/-- The end of a call: the completed message joins the history. -/
theorem Inv.finish (h : s.Inv) {m : Message} (hcall : s.call = some m)
    (hfull : m.passed < m.text.length → s.con.occupancy = Console.size - 1) :
    (s.finish m).Inv := by
  obtain ⟨hq, hocc, hempty⟩ := h.queue.kickTx
  have haccepted : (s.finish m).accepted = s.accepted := by
    simp [accepted, ConsoleRun.finish, hcall]
  refine ⟨by rw [haccepted]; exact hq, fun _ hz => hocc.trans (hempty hz), ?_⟩
  intro m' hm'
  rcases List.mem_append.mp hm' with hm' | hm'
  · exact h.dropped m' hm'
  · rw [List.mem_singleton.mp hm']
    exact hfull

/-- The full test compares the occupancy with its limit. -/
theorem room_iff (c : Console) :
    c.prod - c.cons ≠ BitVec.ofNat 32 (Console.size - 1) ↔ c.occupancy ≠ Console.size - 1 := by
  have hsize : (BitVec.ofNat 32 (Console.size - 1)).toNat = Console.size - 1 := rfl
  rw [not_iff_not, ← BitVec.toNat_inj, hsize]
  rfl

/-- An iteration of the loop of `vprintk` keeps the ring a queue, unless it meets a
line feed with 2046 bytes queued. -/
theorem Inv.loop (h : s.Inv) (hcall : s.call ≠ none) (hloose : ¬ s.Tight) : s.loop.Inv := by
  obtain ⟨m, hm⟩ := Option.ne_none_iff_exists'.mp hcall
  simp only [ConsoleRun.loop, hm]
  split
  · rename_i hend
    rw [List.getElem?_eq_none_iff] at hend
    exact h.finish hm fun hlt => absurd hlt (Nat.not_lt.mpr hend)
  · rename_i ch hch
    split
    · rename_i hroom
      rw [room_iff] at hroom
      have hle := h.queue.occupancy_le
      have hq := putChar_queue h.queue ch (by omega) fun hlf hocc =>
        hloose ⟨m, hm, by rw [← hlf]; exact hch, hocc⟩
      have haccepted : s.accepted ++ crlf ch = ConsoleRun.accepted
          { s with con := s.con.putChar ch, call := some { m with passed := m.passed + 1 } } := by
        simp only [accepted, hm, Option.elim, accepted_pass hch, List.append_assoc]
      exact ⟨by rw [← haccepted]; exact hq, nofun, h.dropped⟩
    · rename_i hfull
      rw [not_iff_not.mpr (room_iff s.con), not_not] at hfull
      exact h.finish hm fun _ => hfull

theorem Inv.step (hstep : ConsoleStep s t) (hloose : t = s.loop → ¬ s.Tight) (h : s.Inv) :
    t.Inv := by
  cases hstep with
  | vprintk text hcall _ _ =>
    refine ⟨?_, nofun, h.dropped⟩
    have haccepted : ConsoleRun.accepted { s with call := some ⟨text, 0⟩ } = s.accepted := by
      simp [accepted, hcall, Message.accepted]
    rw [haccepted]
    exact h.queue
  | loop hcall => exact h.loop hcall (hloose rfl)
  | dma hen hpos =>
    have hne : s.con.dmaSz ≠ 0 := by
      intro hz
      have := h.queue.cndtr_le
      rw [hz] at this
      simp at this
      omega
    exact ⟨h.queue.dma hpos, fun _ hz => absurd hz hne, h.dropped⟩
  | irq hcall htc =>
    obtain ⟨hq, hempty⟩ := h.queue.irq htc
    exact ⟨hq, fun _ => hempty, h.dropped⟩

/-- From a `Tight` state the next iteration goes over the limit. -/
theorem loop_of_tight (htight : s.Tight) : s.loop.con.occupancy = 2048 := by
  obtain ⟨m, hm, hch, hocc⟩ := htight
  have hroom : s.con.prod - s.con.cons ≠ BitVec.ofNat 32 (Console.size - 1) := by
    rw [room_iff, hocc]
    decide
  have h1 : (1 : BitVec 32).toNat = 1 := rfl
  have hput : s.loop.con = (s.con.store 0x0d).store 0x0a := by
    simp only [ConsoleRun.loop, hm, hch, if_pos hroom]
    rfl
  rw [hput]
  simp only [Console.occupancy, Console.store, BitVec.toNat_sub, BitVec.toNat_add, h1] at hocc ⊢
  omega

end ConsoleRun

/-- **The console is a faithful queue until a line feed meets 2046 queued bytes.**
In every run whose steps never start from a `Tight` state, every state reached is
faithful; and the iteration that follows a `Tight` state is never. -/
theorem console_fifo (ring : Nat → Byte) (s : ConsoleRun)
    (hrun : Relation.ReflTransGen (fun s t => ConsoleStep s t ∧ ¬ s.Tight)
      (ConsoleRun.init ring) s) : s.Faithful ∧ (s.Tight → ¬ s.loop.Faithful) := by
  have hinv : s.Inv :=
    run_invariant (fun _ _ hstep h => h.step hstep.1 fun _ => hstep.2) hrun
      (ConsoleRun.Inv.init ring)
  refine ⟨hinv.faithful, fun htight hloop => ?_⟩
  have hle := hloop.occupancy_le
  rw [ConsoleRun.loop_of_tight htight] at hle
  exact absurd hle (by decide)

/-- A one-character message, printed and handed to the USART. -/
theorem console_fifo_one_character : ∃ s : ConsoleRun, s.con.sent = [0x61] ∧ s.Faithful := by
  have hloose : ∀ {s : ConsoleRun}, s.con.occupancy ≠ 2046 → ¬ s.Tight := by
    rintro s hne ⟨m, -, -, hocc⟩
    exact hne hocc
  have hrun : Relation.ReflTransGen (fun s t => ConsoleStep s t ∧ ¬ s.Tight)
      (ConsoleRun.init fun _ => 0) _ :=
    .single ⟨ConsoleStep.vprintk _ [0x61] rfl (by decide) (by decide), hloose (by decide)⟩
  have hsent := ((hrun.tail ⟨ConsoleStep.loop _ (by decide), hloose (by decide)⟩).tail
    ⟨ConsoleStep.loop _ (by decide), hloose (by decide)⟩).tail
    ⟨ConsoleStep.dma _ (by decide) (by decide), hloose (by decide)⟩
  exact ⟨_, by decide, (console_fifo (fun _ => 0) _ hsent).1⟩

/-! ## A run that goes over the limit -/

namespace ConsoleRun

variable {s : ConsoleRun}

/-- A call of `vprintk` that nothing interrupts. -/
def printk (s : ConsoleRun) (text : List Byte) : ConsoleRun :=
  ConsoleRun.loop^[text.length + 1] { s with call := some ⟨text, 0⟩ }

theorem loops_steps (n : Nat) : ∀ s : ConsoleRun,
    Relation.ReflTransGen ConsoleStep s (ConsoleRun.loop^[n] s) := by
  induction n with
  | zero => exact fun s => .refl
  | succ n ih =>
    intro s
    rw [Function.iterate_succ_apply]
    by_cases hcall : s.call = none
    · have hidle : s.loop = s := by simp only [ConsoleRun.loop, hcall]
      rw [hidle]
      exact ih s
    · exact (ih s.loop).head (ConsoleStep.loop s hcall)

/-- An uninterrupted call is a run. -/
theorem printk_steps (hcall : s.call = none) {text : List Byte} (hlen : text.length ≤ 127)
    (hnul : 0 ∉ text) : Relation.ReflTransGen ConsoleStep s (s.printk text) :=
  (loops_steps _ _).head (ConsoleStep.vprintk s text hcall hlen hnul)

theorem kickTx_async {c : Console} (hasync : c.syncConsole = false) :
    c.kickTx.syncConsole = false ∧ c.kickTx.occupancy = c.occupancy := by
  rw [Console.kickTx, hasync, if_neg Bool.false_ne_true]
  split
  · exact ⟨rfl, by simp only [Console.occupancy]⟩
  · exact ⟨hasync, rfl⟩

/-- The loop stores plain characters one by one. -/
theorem loops_plain {text : List Byte} (hplain : ∀ ch ∈ text, ch ≠ 0x0d ∧ ch ≠ 0x0a)
    (hcall : s.call = some ⟨text, 0⟩) (hasync : s.con.syncConsole = false)
    (hroom : s.con.occupancy + text.length ≤ Console.size - 1) : ∀ n, n ≤ text.length →
    (ConsoleRun.loop^[n] s).call = some ⟨text, n⟩ ∧
      (ConsoleRun.loop^[n] s).con.syncConsole = false ∧
      (ConsoleRun.loop^[n] s).con.occupancy = s.con.occupancy + n := by
  intro n
  induction n with
  | zero => exact fun _ => ⟨hcall, hasync, rfl⟩
  | succ n ih =>
    intro hn
    obtain ⟨hc, ha, ho⟩ := ih (by omega)
    rw [Function.iterate_succ_apply']
    generalize ConsoleRun.loop^[n] s = t at *
    have hch : text[n]? = some text[n] := List.getElem?_eq_getElem (by omega)
    obtain ⟨hcr, hlf⟩ := hplain text[n] (List.getElem_mem _)
    have htest : t.con.prod - t.con.cons ≠ BitVec.ofNat 32 (Console.size - 1) := by
      rw [room_iff]
      omega
    have hloop : t.loop = { t with con := t.con.store text[n], call := some ⟨text, n + 1⟩ } := by
      simp only [ConsoleRun.loop, hc, hch, if_pos htest, Console.putChar, if_neg hcr, if_neg hlf]
    have h1 : (1 : BitVec 32).toNat = 1 := rfl
    rw [hloop]
    refine ⟨rfl, ha, ?_⟩
    simp only [Console.occupancy, Console.store, BitVec.toNat_sub, BitVec.toNat_add, h1,
      Console.size] at ho hroom ⊢
    omega

/-- Plain text that fits is queued. -/
theorem printk_plain {text : List Byte} (hplain : ∀ ch ∈ text, ch ≠ 0x0d ∧ ch ≠ 0x0a)
    (hasync : s.con.syncConsole = false)
    (hroom : s.con.occupancy + text.length ≤ Console.size - 1) :
    (s.printk text).call = none ∧ (s.printk text).con.syncConsole = false ∧
      (s.printk text).con.occupancy = s.con.occupancy + text.length := by
  obtain ⟨hc, ha, ho⟩ := loops_plain (s := { s with call := some ⟨text, 0⟩ }) hplain rfl hasync
    hroom text.length (Nat.le_refl _)
  rw [printk, Function.iterate_succ_apply']
  generalize ConsoleRun.loop^[text.length] { s with call := some ⟨text, 0⟩ } = t at *
  have hend : text[text.length]? = none := List.getElem?_eq_none (Nat.le_refl _)
  obtain ⟨hsync, hocc⟩ := kickTx_async ha
  simp only [ConsoleRun.loop, hc, hend, ConsoleRun.finish]
  exact ⟨trivial, hsync, hocc.trans ho⟩

/-- Calls with the same plain text, as long as they fit. -/
theorem printks_plain {text : List Byte} (hplain : ∀ ch ∈ text, ch ≠ 0x0d ∧ ch ≠ 0x0a)
    (hlen : text.length ≤ 127) (hnul : 0 ∉ text) (n : Nat) : ∀ s : ConsoleRun,
    s.call = none → s.con.syncConsole = false →
    s.con.occupancy + n * text.length ≤ Console.size - 1 →
    let t := (List.replicate n text).foldl printk s
    Relation.ReflTransGen ConsoleStep s t ∧ t.call = none ∧ t.con.syncConsole = false ∧
      t.con.occupancy = s.con.occupancy + n * text.length := by
  induction n with
  | zero => intro s hc ha _; exact ⟨.refl, hc, ha, by simp⟩
  | succ n ih =>
    intro s hc ha hroom
    rw [Nat.add_mul n 1, Nat.one_mul] at hroom ⊢
    obtain ⟨hc', ha', ho'⟩ := printk_plain hplain ha (by omega)
    obtain ⟨hrun, hcall, hasync, hocc⟩ := ih (s.printk text) hc' ha' (by omega)
    exact ⟨(printk_steps hc hlen hnul).trans hrun, hcall, hasync, by
      simp only [List.replicate_succ, List.foldl_cons]
      omega⟩

/-- A line feed on a ring with one free slot. -/
theorem printk_lf (hasync : s.con.syncConsole = false) (hocc : s.con.occupancy = 2046) :
    (s.printk [0x0a]).con.occupancy = 2048 := by
  have hput : ConsoleRun.loop { s with call := some ⟨[0x0a], 0⟩ } =
      { s with con := (s.con.store 0x0d).store 0x0a, call := some ⟨[0x0a], 1⟩ } := by
    have hroom : s.con.prod - s.con.cons ≠ BitVec.ofNat 32 (Console.size - 1) := by
      rw [room_iff, hocc]
      decide
    simp only [ConsoleRun.loop, List.getElem?_cons_zero, if_pos hroom]
    rfl
  have htight := loop_of_tight (s := { s with call := some ⟨[0x0a], 0⟩ }) ⟨_, rfl, rfl, hocc⟩
  rw [hput] at htight
  rw [printk, Function.iterate_succ_apply, hput]
  exact (kickTx_async (c := (s.con.store 0x0d).store 0x0a) hasync).2.trans htight

end ConsoleRun

/-- 2046 plain characters and a line feed, printed while no transfer completes. -/
def overflowRun : ConsoleRun :=
  (((List.replicate 16 (List.replicate 127 0x61)).foldl ConsoleRun.printk
    (ConsoleRun.init fun _ => 0)).printk (List.replicate 14 0x61)).printk [0x0a]

/-- The ring then holds 2048 bytes. -/
theorem console_fifo_overflow :
    Relation.ReflTransGen ConsoleStep (ConsoleRun.init fun _ => 0) overflowRun ∧
      overflowRun.con.occupancy = 2048 ∧ ¬ overflowRun.Faithful := by
  have hplain : ∀ (n : Nat) (ch : Byte), ch ∈ List.replicate n (0x61 : Byte) →
      ch ≠ 0x0d ∧ ch ≠ 0x0a := by
    intro n ch hch
    rw [List.eq_of_mem_replicate hch]
    decide
  have hnul : ∀ n : Nat, (0 : Byte) ∉ List.replicate n (0x61 : Byte) := by
    intro n hmem
    exact absurd (List.eq_of_mem_replicate hmem) (by decide)
  have hzero : (ConsoleRun.init fun _ => 0).con.occupancy = 0 := by
    simp [ConsoleRun.init, Console.init, Console.occupancy]
  -- 16 messages of 127 characters, one of 14, and the line feed
  obtain ⟨hrun, hcall, hasync, hocc⟩ := ConsoleRun.printks_plain (hplain 127)
    (Nat.le_of_eq List.length_replicate) (hnul 127) 16 (ConsoleRun.init fun _ => 0) rfl rfl
    (by rw [hzero, List.length_replicate]; decide)
  rw [hzero, List.length_replicate] at hocc
  obtain ⟨hcall', hasync', hocc'⟩ := ConsoleRun.printk_plain (hplain 14) hasync
    (by rw [hocc, List.length_replicate]; decide)
  rw [hocc, List.length_replicate] at hocc'
  have hover := ConsoleRun.printk_lf hasync' hocc'
  refine ⟨?_, hover, fun hfaithful => ?_⟩
  · exact (hrun.trans (ConsoleRun.printk_steps hcall (by simp) (hnul 14))).trans
      (ConsoleRun.printk_steps hcall' (by simp) (by decide))
  · have hle := hfaithful.occupancy_le
    have hsize : Console.size = 2048 := rfl
    rw [overflowRun, hover] at hle
    omega

end FlashFloppyTestbed
