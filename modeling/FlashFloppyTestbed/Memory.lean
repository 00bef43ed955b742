/-
  Memory.lean --- byte memory of the little-endian target, and the byte-order
  intrinsics of `inc/intrinsics.h`.

  `Rules.mk` compiles with `-mlittle-endian`, so a 16- or 32-bit load puts the
  byte at the lowest address into the lowest eight bits.  Bitcell buffers are
  kept big-endian in that memory: `be32toh (ld32 m a)` reads four bytes so that
  its most significant bit is the first bitcell of the byte at `a`
  (`bitsOf_be32toh_ld32`), and `st32 m a (htobe32 v)` stores the bits of `v` in
  bitcell order (`bits_st32_htobe32`).

  Addresses are natural numbers.  A constant object, or an object of a caller
  that a function only reads (`mfm_idam_mark`, a `struct idam`), is the list of
  its bytes.
-/
import FlashFloppyTestbed.Foundation.Bits

set_option autoImplicit false

namespace FlashFloppyTestbed

open FlashFloppyTestbed.Foundation

/-- A byte of memory; `uint8_t`, and `char`, which is unsigned on this target. -/
abbrev Byte := BitVec 8

/-- Byte-addressed memory. -/
def Mem := Nat → Byte

namespace Mem

/-- The `n` bytes from address `a` on. -/
def bytes (m : Mem) (a n : Nat) : List Byte := (List.range n).map fun i => m (a + i)

/-- The bitcells held by the `n` bytes from address `a` on, first bitcell first. -/
def bits (m : Mem) (a n : Nat) : List Bool := (m.bytes a n).flatMap bitsOf

/-- Store a byte. -/
def st8 (m : Mem) (a : Nat) (v : Byte) : Mem := fun i => if i = a then v else m i

/-- Store a run of bytes from address `a` on. -/
def stBytes (m : Mem) (a : Nat) (l : List Byte) : Mem :=
  fun i => if a ≤ i ∧ i < a + l.length then l.getD (i - a) 0 else m i

@[simp] theorem length_bytes (m : Mem) (a n : Nat) : (m.bytes a n).length = n := by
  simp [bytes]

@[simp] theorem getElem_bytes (m : Mem) (a n i : Nat) (h : i < (m.bytes a n).length) :
    (m.bytes a n)[i] = m (a + i) := by
  simp [bytes]

theorem bytes_zero (m : Mem) (a : Nat) : m.bytes a 0 = [] := rfl

theorem bytes_add (m : Mem) (a n k : Nat) :
    m.bytes a (n + k) = m.bytes a n ++ m.bytes (a + n) k := by
  simp [bytes, List.range_add, Function.comp_def, Nat.add_assoc]

theorem bytes_succ (m : Mem) (a n : Nat) : m.bytes a (n + 1) = m a :: m.bytes (a + 1) n := by
  rw [Nat.add_comm n 1, bytes_add]
  rfl

theorem bytes_congr {m m' : Mem} {a n : Nat} (h : ∀ i, a ≤ i → i < a + n → m i = m' i) :
    m.bytes a n = m'.bytes a n := by
  apply List.map_congr_left
  intro i hi
  rw [List.mem_range] at hi
  exact h _ (by omega) (by omega)

theorem bytes_sub (m : Mem) (a n i k : Nat) (h : i + k ≤ n) :
    m.bytes (a + i) k = ((m.bytes a n).drop i).take k := by
  have hsplit : n = i + (k + (n - i - k)) := by omega
  rw [hsplit, bytes_add, List.drop_left' (by simp), bytes_add, List.take_left' (by simp)]

@[simp] theorem length_bits (m : Mem) (a n : Nat) : (m.bits a n).length = 8 * n := by
  simp [bits, List.length_flatMap, bytes, Function.comp_def, Nat.mul_comm]

theorem bits_add (m : Mem) (a n k : Nat) :
    m.bits a (n + k) = m.bits a n ++ m.bits (a + n) k := by
  simp [bits, bytes_add]

theorem bits_congr {m m' : Mem} {a n : Nat} (h : ∀ i, a ≤ i → i < a + n → m i = m' i) :
    m.bits a n = m'.bits a n := by
  rw [bits, bits, bytes_congr h]

theorem bits_sub (m : Mem) (a n i k : Nat) (h : i + k ≤ n) :
    m.bits (a + i) k = ((m.bits a n).drop (8 * i)).take (8 * k) := by
  have hsplit : n = i + (k + (n - i - k)) := by omega
  rw [hsplit, bits_add, List.drop_left' (by simp), bits_add, List.take_left' (by simp)]

/-- A region is determined by its bitcells. -/
theorem eq_of_bits_eq {m m' : Mem} {a n i : Nat} (h : m.bits a n = m'.bits a n) (hlo : a ≤ i)
    (hhi : i < a + n) : m i = m' i := by
  have hbyte : ∀ m : Mem, bitsOf (m i) = ((m.bits a n).drop (8 * (i - a))).take (8 * 1) := by
    intro m
    rw [← bits_sub m a n (i - a) 1 (by omega), Nat.add_sub_cancel' hlo]
    simp [bits, bytes_succ, bytes_zero]
  exact bitsOf_injective (by rw [hbyte m, hbyte m', h])

/-! ## Stores -/

@[simp] theorem st8_self (m : Mem) (a : Nat) (v : Byte) : m.st8 a v a = v := by simp [st8]

theorem st8_of_ne (m : Mem) {a i : Nat} (v : Byte) (h : i ≠ a) : m.st8 a v i = m i := by
  simp [st8, h]

theorem stBytes_of_lt (m : Mem) {a i : Nat} (l : List Byte) (h : i < a) :
    m.stBytes a l i = m i := by
  simp [stBytes, Nat.not_le.mpr h]

theorem stBytes_of_le (m : Mem) {a i : Nat} (l : List Byte) (h : a + l.length ≤ i) :
    m.stBytes a l i = m i := by
  simp [stBytes, Nat.not_lt.mpr h]

theorem bytes_stBytes (m : Mem) (a : Nat) (l : List Byte) :
    (m.stBytes a l).bytes a l.length = l := by
  apply List.ext_getElem
  · simp
  · intro i h₁ h₂
    have hin : i < l.length := h₂
    simp [stBytes, hin]

/-- A store just past a region extends it. -/
theorem bytes_stBytes_append (m : Mem) (a n : Nat) (l : List Byte) :
    (m.stBytes (a + n) l).bytes a (n + l.length) = m.bytes a n ++ l := by
  rw [bytes_add, bytes_stBytes]
  congr 1
  exact bytes_congr fun i _ hi => stBytes_of_lt _ _ hi

/-! ## Little-endian loads and stores -/

/-- 16-bit load. -/
def ld16 (m : Mem) (a : Nat) : BitVec 16 := m (a + 1) ++ m a

/-- 32-bit load. -/
def ld32 (m : Mem) (a : Nat) : BitVec 32 := m (a + 3) ++ m (a + 2) ++ m (a + 1) ++ m a

/-- 16-bit store. -/
def st16 (m : Mem) (a : Nat) (v : BitVec 16) : Mem :=
  m.stBytes a [v.extractLsb' 0 8, v.extractLsb' 8 8]

/-- 32-bit store. -/
def st32 (m : Mem) (a : Nat) (v : BitVec 32) : Mem :=
  m.stBytes a [v.extractLsb' 0 8, v.extractLsb' 8 8, v.extractLsb' 16 8, v.extractLsb' 24 8]

theorem st16_of_lt (m : Mem) {a i : Nat} (v : BitVec 16) (h : i < a) : m.st16 a v i = m i :=
  stBytes_of_lt _ _ h

theorem st16_of_le (m : Mem) {a i : Nat} (v : BitVec 16) (h : a + 2 ≤ i) :
    m.st16 a v i = m i :=
  stBytes_of_le _ _ h

theorem st32_of_lt (m : Mem) {a i : Nat} (v : BitVec 32) (h : i < a) : m.st32 a v i = m i :=
  stBytes_of_lt _ _ h

theorem st32_of_le (m : Mem) {a i : Nat} (v : BitVec 32) (h : a + 4 ≤ i) :
    m.st32 a v i = m i :=
  stBytes_of_le _ _ h

end Mem

/-! ## Byte order -/

/-- `_rev16`: swap the two bytes of a halfword. -/
def rev16 (x : BitVec 16) : BitVec 16 := x.extractLsb' 0 8 ++ x.extractLsb' 8 8

/-- `_rev32`: reverse the four bytes of a word. -/
def rev32 (x : BitVec 32) : BitVec 32 :=
  x.extractLsb' 0 8 ++ x.extractLsb' 8 8 ++ x.extractLsb' 16 8 ++ x.extractLsb' 24 8

/-- `be16toh`. -/
def be16toh (x : BitVec 16) : BitVec 16 := rev16 x
/-- `be32toh`. -/
def be32toh (x : BitVec 32) : BitVec 32 := rev32 x
/-- `htobe16`. -/
def htobe16 (x : BitVec 16) : BitVec 16 := rev16 x
/-- `htobe32`. -/
def htobe32 (x : BitVec 32) : BitVec 32 := rev32 x

/-- `rev16` on a halfword given by its bytes. -/
theorem rev16_append (x y : Byte) : rev16 (x ++ y) = y ++ x := by
  have h0 : (x ++ y).extractLsb' 0 8 = y := by
    rw [extractLsb'_append_right _ _ (by omega), BitVec.extractLsb'_eq_self]
  have h8 : (x ++ y).extractLsb' (8 + 0) 8 = x := by
    rw [extractLsb'_append_left, BitVec.extractLsb'_eq_self]
  rw [rev16, h0, h8]

/-- The bytes of a word given by its bytes, lowest first. -/
theorem bytes_append (x y z t : Byte) :
    (x ++ y ++ z ++ t).extractLsb' 0 8 = t ∧ (x ++ y ++ z ++ t).extractLsb' 8 8 = z ∧
      (x ++ y ++ z ++ t).extractLsb' 16 8 = y ∧ (x ++ y ++ z ++ t).extractLsb' 24 8 = x := by
  have h0 : (x ++ y ++ z ++ t).extractLsb' 0 8 = t := by
    rw [extractLsb'_append_right _ _ (by omega), BitVec.extractLsb'_eq_self]
  have h8 : (x ++ y ++ z ++ t).extractLsb' (8 + 0) 8 = z := by
    rw [extractLsb'_append_left, extractLsb'_append_right _ _ (by omega),
      BitVec.extractLsb'_eq_self]
  have h16 : (x ++ y ++ z ++ t).extractLsb' (8 + (8 + 0)) 8 = y := by
    rw [extractLsb'_append_left, extractLsb'_append_left,
      extractLsb'_append_right _ _ (by omega), BitVec.extractLsb'_eq_self]
  have h24 : (x ++ y ++ z ++ t).extractLsb' (8 + (8 + (8 + 0))) 8 = x := by
    rw [extractLsb'_append_left, extractLsb'_append_left, extractLsb'_append_left,
      BitVec.extractLsb'_eq_self]
  exact ⟨h0, h8, h16, h24⟩

/-- `rev32` on a word given by its bytes. -/
theorem rev32_append (x y z t : Byte) :
    rev32 (x ++ y ++ z ++ t) = t ++ z ++ y ++ x := by
  obtain ⟨h0, h8, h16, h24⟩ := bytes_append x y z t
  rw [rev32, h0, h8, h16, h24]

/-- A halfword is the concatenation of its two bytes. -/
theorem halfword_eq_append (v : BitVec 16) : v.extractLsb' 8 8 ++ v.extractLsb' 0 8 = v := by
  rw [BitVec.extractLsb'_append_extractLsb'_eq_extractLsb' (by rfl)]
  exact BitVec.extractLsb'_eq_self

/-- A word is the concatenation of its four bytes. -/
theorem word_eq_append (v : BitVec 32) :
    v.extractLsb' 24 8 ++ v.extractLsb' 16 8 ++ v.extractLsb' 8 8 ++ v.extractLsb' 0 8 = v := by
  rw [BitVec.extractLsb'_append_extractLsb'_eq_extractLsb' (by rfl),
    BitVec.extractLsb'_append_extractLsb'_eq_extractLsb' (by rfl),
    BitVec.extractLsb'_append_extractLsb'_eq_extractLsb' (by rfl)]
  exact BitVec.extractLsb'_eq_self

theorem rev16_rev16 (v : BitVec 16) : rev16 (rev16 v) = v := by
  conv => lhs; rw [← halfword_eq_append v, rev16_append, rev16_append]
  exact halfword_eq_append v

theorem rev32_rev32 (v : BitVec 32) : rev32 (rev32 v) = v := by
  conv => lhs; rw [← word_eq_append v, rev32_append, rev32_append]
  exact word_eq_append v

namespace Mem

theorem be16toh_ld16 (m : Mem) (a : Nat) : be16toh (m.ld16 a) = m a ++ m (a + 1) :=
  rev16_append _ _

theorem be32toh_ld32 (m : Mem) (a : Nat) :
    be32toh (m.ld32 a) = m a ++ m (a + 1) ++ m (a + 2) ++ m (a + 3) :=
  rev32_append _ _ _ _

/-- A big-endian load of a halfword reads its bitcells in order. -/
theorem bitsOf_be16toh_ld16 (m : Mem) (a : Nat) : bitsOf (be16toh (m.ld16 a)) = m.bits a 2 := by
  rw [be16toh_ld16, bitsOf_append]
  simp [bits, bytes, List.range_succ]

/-- A big-endian load of a word reads its bitcells in order. -/
theorem bitsOf_be32toh_ld32 (m : Mem) (a : Nat) : bitsOf (be32toh (m.ld32 a)) = m.bits a 4 := by
  rw [be32toh_ld32]
  simp only [bitsOf_append]
  simp [bits, bytes, List.range_succ]

@[simp] theorem ld16_st16 (m : Mem) (a : Nat) (v : BitVec 16) : (m.st16 a v).ld16 a = v := by
  have hlo : m.st16 a v a = v.extractLsb' 0 8 := by simp [st16, stBytes]
  have hhi : m.st16 a v (a + 1) = v.extractLsb' 8 8 := by simp [st16, stBytes]
  rw [ld16, hlo, hhi, halfword_eq_append]

@[simp] theorem ld32_st32 (m : Mem) (a : Nat) (v : BitVec 32) : (m.st32 a v).ld32 a = v := by
  have h0 : m.st32 a v a = v.extractLsb' 0 8 := by simp [st32, stBytes]
  have h1 : m.st32 a v (a + 1) = v.extractLsb' 8 8 := by simp [st32, stBytes]
  have h2 : m.st32 a v (a + 2) = v.extractLsb' 16 8 := by simp [st32, stBytes]
  have h3 : m.st32 a v (a + 3) = v.extractLsb' 24 8 := by simp [st32, stBytes]
  rw [ld32, h0, h1, h2, h3, word_eq_append]

/-- A big-endian store of a word lays out its bits in bitcell order. -/
theorem bits_st32_htobe32 (m : Mem) (a : Nat) (v : BitVec 32) :
    (m.st32 a (htobe32 v)).bits a 4 = bitsOf v := by
  rw [← bitsOf_be32toh_ld32, ld32_st32, be32toh, htobe32, rev32_rev32]

end Mem

end FlashFloppyTestbed
