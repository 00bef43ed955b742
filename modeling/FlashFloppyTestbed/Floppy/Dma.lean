/-
  Floppy/Dma.lean --- the circular DMA transfer that both directions of
  `src/floppy_generic.c` share.

  `struct dma_ring` holds a ring of `ARRAY_SIZE(buf) = 1024` timer values.  The
  engine counts `cndtr` down from 1024 to 1 and reloads it, so that the slot it
  accesses next is `ARRAY_SIZE(buf) - cndtr`.  A counter value outside 1..1024
  is never observable, and `Cndtr` cannot hold one.
-/
import FlashFloppyTestbed.Foundation.Ring
import Mathlib.Tactic.Common

set_option autoImplicit false

namespace FlashFloppyTestbed.Floppy

open FlashFloppyTestbed.Foundation

/-- `ARRAY_SIZE(dma_r.buf)` and `ARRAY_SIZE(dma_w.buf)`. -/
def ringSize : Nat := 1024

/-- `buf_mask`. -/
def bufMask : BitVec 16 := 1023#16

/-- A DMA channel's `cndtr` in circular mode. -/
structure Cndtr where
  /-- Entries left before the engine wraps. -/
  val : Nat
  pos : 0 < val
  le : val ≤ ringSize

namespace Cndtr

/-- `cndtr = ARRAY_SIZE(buf)`: the value written when a transfer is set up. -/
def start : Cndtr := ⟨ringSize, by decide, Nat.le_refl _⟩

/-- The engine transfers one entry. -/
def next (c : Cndtr) : Cndtr :=
  if h : c.val = 1 then start
  else ⟨c.val - 1, by have := c.pos; omega, by have := c.le; omega⟩

/-- `ARRAY_SIZE(buf) - cndtr` as the code computes it, in a `uint16_t`. -/
def index (c : Cndtr) : BitVec 16 := BitVec.ofNat 16 ringSize - BitVec.ofNat 16 c.val

theorem toNat_index (c : Cndtr) : c.index.toNat = ringSize - c.val := by
  have hpos := c.pos
  have hle := c.le
  simp only [ringSize] at hle
  simp only [index, ringSize, BitVec.toNat_sub, BitVec.toNat_ofNat]
  omega

theorem index_lt (c : Cndtr) : c.index.toNat < ringSize := by
  have hpos := c.pos
  have hle := c.le
  rw [toNat_index]
  omega

@[simp] theorem index_start : start.index.toNat = 0 := by
  rw [toNat_index]
  rfl

/-- One transfer moves the engine to the next slot. -/
theorem index_next (c : Cndtr) : c.next.index.toNat = (c.index.toNat + 1) % ringSize := by
  have hpos := c.pos
  have hle := c.le
  simp only [ringSize] at hle
  by_cases h : c.val = 1
  · rw [next, dif_pos h, index_start, toNat_index, h]
    rfl
  · rw [next, dif_neg h, toNat_index, toNat_index]
    simp only [ringSize]
    omega

end Cndtr

/-- Masking a ring index is reduction modulo the ring size. -/
theorem toNat_and_bufMask (x : BitVec 16) : (x &&& bufMask).toNat = x.toNat % ringSize := by
  rw [BitVec.toNat_and]
  exact Nat.and_two_pow_sub_one_eq_mod x.toNat 10

end FlashFloppyTestbed.Floppy
