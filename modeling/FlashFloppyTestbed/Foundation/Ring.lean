/-
  Foundation/Ring.lean --- circular buffers addressed through a consumer index.

  A ring of `n` slots is a function `buf : Nat → α` read at indices below `n`.
  `window buf n c k` is the queue of `k` entries whose oldest sits in slot
  `c % n`.  Consuming drops the head of the window, producing appends to it, and
  producing is safe as long as fewer than `n` entries are queued
  (`window_update`): the slot written is then none of the occupied ones.

  The index may run freely or be kept reduced modulo `n` (`window_mod`).
-/
import Mathlib.Data.List.Basic
import Mathlib.Data.Nat.ModEq
import Mathlib.Logic.Function.Basic
import Mathlib.Tactic.Common

set_option autoImplicit false

namespace FlashFloppyTestbed.Foundation

variable {α : Type}

/-- The `k` entries queued from consumer index `c` on, oldest first. -/
def window (buf : Nat → α) (n c k : Nat) : List α := (List.range k).map fun i => buf ((c + i) % n)

@[simp] theorem length_window (buf : Nat → α) (n c k : Nat) : (window buf n c k).length = k := by
  simp [window]

@[simp] theorem getElem_window (buf : Nat → α) (n c k i : Nat)
    (h : i < (window buf n c k).length) : (window buf n c k)[i] = buf ((c + i) % n) := by
  simp [window]

@[simp] theorem window_zero (buf : Nat → α) (n c : Nat) : window buf n c 0 = [] := rfl

theorem window_mod (buf : Nat → α) (n c k : Nat) :
    window buf n (c % n) k = window buf n c k := by
  simp [window]

theorem window_add (buf : Nat → α) (n c j k : Nat) :
    window buf n c (j + k) = window buf n c j ++ window buf n (c + j) k := by
  simp [window, List.range_add, Function.comp_def, Nat.add_assoc]

/-- The oldest entry, and the queue once it has been consumed. -/
theorem window_succ (buf : Nat → α) (n c k : Nat) :
    window buf n c (k + 1) = buf (c % n) :: window buf n (c + 1) k := by
  rw [Nat.add_comm k 1, window_add]
  simp [window]

theorem window_congr {buf buf' : Nat → α} {n c k : Nat}
    (h : ∀ i, i < k → buf ((c + i) % n) = buf' ((c + i) % n)) :
    window buf n c k = window buf' n c k :=
  List.map_congr_left fun i hi => h i (List.mem_range.mp hi)

/-- Two offsets that differ by less than a revolution address different slots. -/
theorem slot_ne {n c i j : Nat} (hij : i < j) (hj : j < i + n) : (c + i) % n ≠ (c + j) % n := by
  intro h
  have hdvd : n ∣ (c + j) - (c + i) := (Nat.modEq_iff_dvd' (by omega)).mp h
  have hle := Nat.le_of_dvd (by omega) hdvd
  omega

/-- Writing the first free slot of a ring that is not full appends to the queue
and touches none of the queued entries. -/
theorem window_update (buf : Nat → α) {n c k : Nat} (v : α) (h : k < n) :
    window (Function.update buf ((c + k) % n) v) n c (k + 1) = window buf n c k ++ [v] := by
  rw [window_add]
  congr 1
  · refine window_congr fun i hi => Function.update_of_ne ?_ v buf
    exact slot_ne hi (by omega)
  · simp [window]

end FlashFloppyTestbed.Foundation
