/-
  Memmove.lean --- the block operations of `src/util.c`: `memcpy`, its load-multiple
  loop `memcpy_fast`, `memmove`, and `memset` with `memset_fast`.

  `Mem.move` is a copy that reads everything before it writes anything.  A loop that
  copies from the front is such a copy where the destination is not above the source
  (`Mem.move_move_up`), one that copies from the back where it is not below
  (`Mem.move_move_down`), and one block of `memcpy_fast` always (`stmia_ldmia`).

  `fuel` bounds the turns of the assembly loops, which count 32 bytes down to zero.
-/
import FlashFloppyTestbed.Memory

set_option autoImplicit false

namespace FlashFloppyTestbed

/-! ## The code -/

/-- `while (n--) *p++ = *q++;` -/
def copyUp (m : Mem) (p q : Nat) : Nat → Mem
  | 0 => m
  | n + 1 => copyUp (m.st8 p (m q)) (p + 1) (q + 1) n

/-- `while (n--) *--p = *--q;` -/
def copyDown (m : Mem) (p q : Nat) : Nat → Mem
  | 0 => m
  | n + 1 => copyDown (m.st8 (p - 1) (m (q - 1))) (p - 1) (q - 1) n

/-- `ldmia`: `k` words from address `a` on. -/
def ldmia (m : Mem) (a : Nat) : Nat → List (BitVec 32)
  | 0 => []
  | k + 1 => m.ld32 a :: ldmia m (a + 4) k

/-- `stmia`: words to address `a` and on. -/
def stmia (m : Mem) (a : Nat) : List (BitVec 32) → Mem
  | [] => m
  | v :: vs => stmia (m.st32 a v) (a + 4) vs

/-- `memcpy_fast`. -/
def memcpyFast : Nat → Mem → Nat → Nat → BitVec 32 → Option Mem
  | 0, _, _, _, _ => none
  | fuel + 1, m, r0, r1, r2 =>
    let m := stmia m r0 (ldmia m r1 8)
    let r2 := r2 - 32
    if r2 ≠ 0 then memcpyFast fuel m (r0 + 32) (r1 + 32) r2 else some m

/-- `memcpy`. -/
def memcpy (fuel : Nat) (m : Mem) (dest src : Nat) (n : BitVec 32) : Option Mem :=
  let n32 := n &&& ~~~31
  if n32 ≠ 0 ∧ (dest ||| src) &&& 3 = 0 then
    (memcpyFast fuel m dest src n32).map fun m =>
      copyUp m (dest + n32.toNat) (src + n32.toNat) (n &&& 31).toNat
  else
    some (copyUp m dest src n.toNat)

/-- `memmove`. -/
def memmove (fuel : Nat) (m : Mem) (dest src : Nat) (n : BitVec 32) : Option Mem :=
  if dest < src then memcpy fuel m dest src n
  else some (copyDown m (dest + n.toNat) (src + n.toNat) n.toNat)

/-- `while (n--) *p++ = c;` -/
def fillUp (m : Mem) (p : Nat) (c : Byte) : Nat → Mem
  | 0 => m
  | n + 1 => fillUp (m.st8 p c) (p + 1) c n

/-- The loop of `memset_fast`, with `r4` in all of `r3` to `r10`. -/
def memsetLoop (r4 : BitVec 32) : Nat → Mem → Nat → BitVec 32 → Option Mem
  | 0, _, _, _ => none
  | fuel + 1, m, r0, r2 =>
    let m := stmia m r0 (List.replicate 8 r4)
    let r2 := r2 - 32
    if r2 ≠ 0 then memsetLoop r4 fuel m (r0 + 32) r2 else some m

/-- `memset_fast`. -/
def memsetFast (fuel : Nat) (m : Mem) (r0 : Nat) (r1 r2 : BitVec 32) : Option Mem :=
  let r5 := (r1.setWidth 8).setWidth 32
  memsetLoop (0x01010101 * r5) fuel m r0 r2

/-- `memset`. -/
def memset (fuel : Nat) (m : Mem) (s : Nat) (c n : BitVec 32) : Option Mem :=
  let n32 := n &&& ~~~31
  if n32 ≠ 0 ∧ s &&& 3 = 0 then
    (memsetFast fuel m s c n32).map fun m =>
      fillUp m (s + n32.toNat) (c.setWidth 8) (n &&& 31).toNat
  else
    some (fillUp m s (c.setWidth 8) n.toNat)

/-! ## Copying at once -/

namespace Mem

/-- The `n` bytes from `src` on, copied to `dest` and on. -/
def move (m : Mem) (dest src n : Nat) : Mem :=
  fun a => if dest ≤ a ∧ a < dest + n then m (src + (a - dest)) else m a

variable (m : Mem) {dest src n k : Nat}

theorem move_inside {a : Nat} (hlo : dest ≤ a) (hhi : a < dest + n) :
    m.move dest src n a = m (src + (a - dest)) := if_pos ⟨hlo, hhi⟩

theorem move_outside {a : Nat} (h : a < dest ∨ dest + n ≤ a) : m.move dest src n a = m a :=
  if_neg (by omega)

@[simp] theorem move_zero : m.move dest src 0 = m := by
  funext a
  exact m.move_outside (by omega)

theorem bytes_move : (m.move dest src n).bytes dest n = m.bytes src n := by
  apply List.ext_getElem
  · simp
  · intro i hi _
    rw [getElem_bytes, getElem_bytes]
    rw [length_bytes] at hi
    rw [move_inside m (by omega) (by omega), Nat.add_sub_cancel_left]

/-- The front, then the rest. -/
theorem move_move_up (h : dest ≤ src) :
    (m.move dest src k).move (dest + k) (src + k) n = m.move dest src (k + n) := by
  funext a
  rcases Nat.lt_or_ge a (dest + k) with hfront | hback
  · rw [move_outside _ (.inl hfront)]
    rcases Nat.lt_or_ge a dest with hlo | hlo
    · rw [move_outside _ (.inl hlo), move_outside _ (.inl hlo)]
    · rw [move_inside _ hlo hfront, move_inside _ hlo (by omega)]
  · rcases Nat.lt_or_ge a (dest + k + n) with hhi | hhi
    · rw [move_inside _ hback hhi, move_outside _ (.inr (by omega)),
        move_inside _ (by omega) (by omega)]
      congr 1
      omega
    · rw [move_outside _ (.inr hhi), move_outside _ (.inr hback),
        move_outside _ (.inr (by omega))]

/-- The back, then the rest. -/
theorem move_move_down (h : src ≤ dest) :
    (m.move (dest + k) (src + k) n).move dest src k = m.move dest src (k + n) := by
  funext a
  rcases Nat.lt_or_ge a (dest + k) with hfront | hback
  · rcases Nat.lt_or_ge a dest with hlo | hlo
    · rw [move_outside _ (.inl hlo), move_outside _ (.inl hfront), move_outside _ (.inl hlo)]
    · rw [move_inside _ hlo hfront, move_outside _ (.inl (by omega)),
        move_inside _ hlo (by omega)]
  · rw [move_outside _ (.inr hback)]
    rcases Nat.lt_or_ge a (dest + k + n) with hhi | hhi
    · rw [move_inside _ hback hhi, move_inside _ (by omega) (by omega)]
      congr 1
      omega
    · rw [move_outside _ (.inr hhi), move_outside _ (.inr (by omega))]

/-- One byte. -/
theorem st8_eq_move : m.st8 dest (m src) = m.move dest src 1 := by
  funext a
  rcases eq_or_ne a dest with rfl | hne
  · rw [st8_self, move_inside _ (Nat.le_refl _) (by omega), Nat.sub_self, Nat.add_zero]
  · rw [st8_of_ne _ _ hne, move_outside _ (by omega)]

theorem st8_eq_stBytes (p : Nat) (c : Byte) : m.st8 p c = m.stBytes p [c] := by
  funext a
  rcases eq_or_ne a p with rfl | hne
  · rw [st8_self, stBytes, if_pos (by simp), Nat.sub_self]
    rfl
  · rw [st8_of_ne _ _ hne, stBytes, if_neg (by simp; omega)]

theorem stBytes_nil (m : Mem) (a : Nat) : m.stBytes a [] = m := by
  funext i
  exact if_neg (by simp)

/-- One store behind another. -/
theorem stBytes_stBytes (m : Mem) (a : Nat) (l l' : List Byte) :
    (m.stBytes a l).stBytes (a + l.length) l' = m.stBytes a (l ++ l') := by
  funext i
  rcases Nat.lt_or_ge i (a + l.length) with hlt | hge
  · rw [stBytes_of_lt _ _ hlt]
    rcases Nat.lt_or_ge i a with hlo | hlo
    · rw [stBytes_of_lt _ _ hlo, stBytes_of_lt _ _ hlo]
    · rw [stBytes, stBytes, if_pos ⟨hlo, hlt⟩, if_pos ⟨hlo, by simp; omega⟩,
        List.getD_append _ _ _ _ (by omega)]
  · rcases Nat.lt_or_ge i (a + l.length + l'.length) with hhi | hhi
    · rw [stBytes, if_pos ⟨hge, hhi⟩, stBytes, if_pos ⟨by omega, by simp; omega⟩,
        List.getD_append_right _ _ _ _ (by omega)]
      congr 1
      omega
    · rw [stBytes_of_le _ _ hhi, stBytes_of_le _ _ hge, stBytes_of_le _ _ (by simp; omega)]

end Mem

/-! ## The byte loops -/

theorem fillUp_eq {m : Mem} {p n : Nat} {c : Byte} :
    fillUp m p c n = m.stBytes p (List.replicate n c) := by
  induction n generalizing m p with
  | zero => rw [fillUp, List.replicate_zero, Mem.stBytes_nil]
  | succ n ih =>
    rw [fillUp, ih, Mem.st8_eq_stBytes, List.replicate_succ]
    exact Mem.stBytes_stBytes m p [c] (List.replicate n c)

theorem copyUp_eq_move {m : Mem} {p q n : Nat} (h : p ≤ q) : copyUp m p q n = m.move p q n := by
  induction n generalizing m p q with
  | zero => rw [copyUp, Mem.move_zero]
  | succ n ih => rw [copyUp, ih (by omega), Mem.st8_eq_move, Mem.move_move_up _ h, Nat.add_comm 1 n]

theorem copyDown_eq_move {m : Mem} {p q n : Nat} (h : q ≤ p) :
    copyDown m (p + n) (q + n) n = m.move p q n := by
  induction n generalizing m with
  | zero => rw [copyDown, Mem.move_zero]
  | succ n ih =>
    rw [copyDown, Nat.add_sub_assoc n.succ_pos, Nat.add_sub_assoc n.succ_pos, Nat.succ_sub_one, ih,
      Mem.st8_eq_move, Mem.move_move_down _ h]

/-! ## The block loop -/

namespace Mem

theorem move_eq_stBytes (m : Mem) (dest src n : Nat) :
    m.move dest src n = m.stBytes dest (m.bytes src n) := by
  funext a
  by_cases hin : dest ≤ a ∧ a < dest + n
  · have hlt : a - dest < (m.bytes src n).length := by
      rw [length_bytes]
      omega
    rw [move_inside _ hin.1 hin.2, stBytes, if_pos (by simpa using hin),
      List.getD_eq_getElem _ _ hlt, getElem_bytes]
  · rw [move, if_neg hin, stBytes, if_neg (by simpa using hin)]

/-- A word, loaded and stored. -/
theorem st32_ld32 (m m' : Mem) (p q : Nat) : m'.st32 p (m.ld32 q) = m'.stBytes p (m.bytes q 4) := by
  obtain ⟨h0, h8, h16, h24⟩ := bytes_append (m (q + 3)) (m (q + 2)) (m (q + 1)) (m q)
  simp only [st32, ld32, h0, h8, h16, h24]
  simp [bytes, List.range_succ]

end Mem

theorem stmia_ldmia (m m' : Mem) (p q k : Nat) :
    stmia m' p (ldmia m q k) = m'.stBytes p (m.bytes q (4 * k)) := by
  induction k generalizing m' p q with
  | zero => rw [ldmia, stmia, Nat.mul_zero, Mem.bytes_zero, Mem.stBytes_nil]
  | succ k ih =>
    have hlen : p + 4 = p + (m.bytes q 4).length := by rw [Mem.length_bytes]
    rw [ldmia, stmia, ih, Mem.st32_ld32, hlen, Mem.stBytes_stBytes, ← Mem.bytes_add,
      Nat.mul_succ, Nat.add_comm 4]

/-- Words that have one byte four times. -/
theorem stmia_replicate (m : Mem) (p k : Nat) (c : Byte) :
    stmia m p (List.replicate k (c ++ c ++ c ++ c)) =
      m.stBytes p (List.replicate (4 * k) c) := by
  induction k generalizing m p with
  | zero => rw [List.replicate_zero, stmia, Nat.mul_zero, List.replicate_zero, Mem.stBytes_nil]
  | succ k ih =>
    obtain ⟨h0, h8, h16, h24⟩ := bytes_append c c c c
    have hword : m.st32 p (c ++ c ++ c ++ c) = m.stBytes p (List.replicate 4 c) := by
      simp only [Mem.st32, h0, h8, h16, h24]
      rfl
    have hlen : p + 4 = p + (List.replicate 4 c).length := by rw [List.length_replicate]
    rw [List.replicate_succ, stmia, hword, ih, hlen, Mem.stBytes_stBytes,
      List.replicate_append_replicate, Nat.mul_succ, Nat.add_comm 4]

/-- One turn: eight words are in registers before the first of them is stored. -/
theorem block_eq_move (m : Mem) (p q : Nat) : stmia m p (ldmia m q 8) = m.move p q 32 := by
  rw [stmia_ldmia, Mem.move_eq_stBytes]

theorem memcpyFast_eq_move {fuel k r0 r1 : Nat} {m : Mem} {r2 : BitVec 32} (h : r0 ≤ r1)
    (hfuel : k < fuel) (hr2 : r2.toNat = 32 * (k + 1)) :
    memcpyFast fuel m r0 r1 r2 = some (m.move r0 r1 r2.toNat) := by
  induction k generalizing fuel r0 r1 m r2 with
  | zero =>
    obtain ⟨fuel, rfl⟩ : ∃ f, fuel = f + 1 := ⟨fuel - 1, by omega⟩
    have hlast : r2 - 32 = 0 := by bv_omega
    rw [memcpyFast, hlast, block_eq_move, hr2]
    rfl
  | succ k ih =>
    obtain ⟨fuel, rfl⟩ : ∃ f, fuel = f + 1 := ⟨fuel - 1, by omega⟩
    have hleft : (r2 - 32).toNat = 32 * (k + 1) := by bv_omega
    have hmore : r2 - 32 ≠ 0 := by
      intro hzero
      rw [hzero] at hleft
      simp at hleft
    rw [memcpyFast]
    simp only [if_pos hmore]
    rw [ih (by omega) (by omega) hleft, block_eq_move, Mem.move_move_up _ h, hleft]
    congr 2
    omega

theorem memsetLoop_eq {fuel k r0 : Nat} {m : Mem} {c : Byte} {r2 : BitVec 32} (hfuel : k < fuel)
    (hr2 : r2.toNat = 32 * (k + 1)) :
    memsetLoop (c ++ c ++ c ++ c) fuel m r0 r2 =
      some (m.stBytes r0 (List.replicate r2.toNat c)) := by
  induction k generalizing fuel r0 m r2 with
  | zero =>
    obtain ⟨fuel, rfl⟩ : ∃ f, fuel = f + 1 := ⟨fuel - 1, by omega⟩
    have hlast : r2 - 32 = 0 := by bv_omega
    rw [memsetLoop, hlast, stmia_replicate, hr2]
    rfl
  | succ k ih =>
    obtain ⟨fuel, rfl⟩ : ∃ f, fuel = f + 1 := ⟨fuel - 1, by omega⟩
    have hleft : (r2 - 32).toNat = 32 * (k + 1) := by bv_omega
    have hmore : r2 - 32 ≠ 0 := by
      intro hzero
      rw [hzero] at hleft
      simp at hleft
    have hlen : r0 + 32 = r0 + (List.replicate (4 * 8) c).length := by simp
    rw [memsetLoop]
    simp only [if_pos hmore]
    rw [ih (by omega) hleft, stmia_replicate, hlen, Mem.stBytes_stBytes,
      List.replicate_append_replicate, hleft]
    congr 3
    omega

/-! ## The functions -/

theorem toNat_and_31 (n : BitVec 32) : (n &&& 31).toNat = n.toNat % 32 := by
  rw [BitVec.toNat_and]
  exact Nat.and_two_pow_sub_one_eq_mod _ 5

theorem toNat_and_not_31 (n : BitVec 32) : (n &&& ~~~31).toNat = 32 * (n.toNat / 32) := by
  have hdisjoint : (n &&& ~~~31) &&& (n &&& 31) = 0 := by
    ext i hi
    rw [BitVec.getElem_and, BitVec.getElem_and, BitVec.getElem_and, BitVec.getElem_not]
    cases n[i] <;> cases (31 : BitVec 32)[i] <;> simp
  have hsum : (n &&& ~~~31) + (n &&& 31) = n := by
    have hall : (~~~31 ||| 31 : BitVec 32) = BitVec.allOnes 32 := by decide
    rw [BitVec.add_eq_or_of_and_eq_zero _ _ hdisjoint, ← BitVec.and_or_distrib_left, hall,
      BitVec.and_allOnes]
  have hle : (n &&& ~~~31).toNat ≤ n.toNat := by
    rw [BitVec.toNat_and]
    exact Nat.and_le_left
  have hlow := toNat_and_31 n
  bv_omega

/-- Up from the front, block by block where both ends are aligned, then byte by byte. -/
theorem memcpy_eq_move {fuel dest src : Nat} {m : Mem} {n : BitVec 32} (h : dest ≤ src)
    (hfuel : n.toNat ≤ 32 * fuel) : memcpy fuel m dest src n = some (m.move dest src n.toNat) := by
  have hn32 := toNat_and_not_31 n
  rw [memcpy]
  obtain ⟨n32, hdef⟩ : ∃ x, x = n &&& ~~~31 := ⟨_, rfl⟩
  rw [← hdef] at hn32 ⊢
  by_cases hfast : n32 ≠ 0 ∧ (dest ||| src) &&& 3 = 0
  · have hblock : n32.toNat = 32 * (n.toNat / 32 - 1 + 1) := by
      have hpos : n32.toNat ≠ 0 := fun hzero => hfast.1 (BitVec.eq_of_toNat_eq hzero)
      omega
    rw [if_pos hfast, memcpyFast_eq_move h (by omega) hblock, Option.map_some,
      copyUp_eq_move (by omega), Mem.move_move_up _ h, toNat_and_31, hn32, Nat.div_add_mod]
  · rw [if_neg hfast, copyUp_eq_move h]

theorem memmove_eq_move {fuel dest src : Nat} {m : Mem} {n : BitVec 32}
    (hfuel : n.toNat ≤ 32 * fuel) :
    memmove fuel m dest src n = some (m.move dest src n.toNat) := by
  by_cases hlt : dest < src
  · rw [memmove, if_pos hlt, memcpy_eq_move (Nat.le_of_lt hlt) hfuel]
  · rw [memmove, if_neg hlt, copyDown_eq_move (Nat.le_of_not_lt hlt)]

/-- `memmove` leaves the bytes of the source at the destination, and the rest alone. -/
theorem memmove_exact (m : Mem) (dest src : Nat) (n : BitVec 32) :
    ∃ m', (∀ fuel, n.toNat ≤ 32 * fuel → memmove fuel m dest src n = some m') ∧
      m'.bytes dest n.toNat = m.bytes src n.toNat ∧
      ∀ a, a < dest ∨ dest + n.toNat ≤ a → m' a = m a :=
  ⟨m.move dest src n.toNat, fun _ hfuel => memmove_eq_move hfuel, Mem.bytes_move m,
    fun _ ha => Mem.move_outside m ha⟩

/-- The multiplication puts the byte into all four places. -/
theorem word_of_byte (c : BitVec 8) :
    (0x01010101 : BitVec 32) * c.setWidth 32 = c ++ c ++ c ++ c := by
  revert c
  decide +kernel

theorem memset_eq {fuel s : Nat} {m : Mem} {c n : BitVec 32} (hfuel : n.toNat ≤ 32 * fuel) :
    memset fuel m s c n = some (m.stBytes s (List.replicate n.toNat (c.setWidth 8))) := by
  have hn32 := toNat_and_not_31 n
  rw [memset]
  obtain ⟨n32, hdef⟩ : ∃ x, x = n &&& ~~~31 := ⟨_, rfl⟩
  rw [← hdef] at hn32 ⊢
  by_cases hfast : n32 ≠ 0 ∧ s &&& 3 = 0
  · have hblock : n32.toNat = 32 * (n.toNat / 32 - 1 + 1) := by
      have hpos : n32.toNat ≠ 0 := fun hzero => hfast.1 (BitVec.eq_of_toNat_eq hzero)
      omega
    have hlen : s + n32.toNat = s + (List.replicate n32.toNat (c.setWidth 8)).length := by simp
    rw [if_pos hfast, memsetFast, word_of_byte, memsetLoop_eq (by omega) hblock, Option.map_some,
      fillUp_eq, hlen, Mem.stBytes_stBytes, List.replicate_append_replicate, toNat_and_31, hn32,
      Nat.div_add_mod]
  · rw [if_neg hfast, fillUp_eq]

end FlashFloppyTestbed
