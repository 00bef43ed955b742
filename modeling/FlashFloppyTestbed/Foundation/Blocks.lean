/-
  Foundation/Blocks.lean --- a list laid out in blocks of one length.

  `l.flatMap f` with `(f x).length = c` for all `x` is `l` in another unit: its
  positions are those of `l` times `c`, and it determines `l` if `f` is injective.
-/
import Mathlib.Data.List.Basic

set_option autoImplicit false

namespace FlashFloppyTestbed.Foundation

variable {α β : Type} {f : α → List β} {c : Nat}

theorem length_blocks (hf : ∀ x, (f x).length = c) (l : List α) :
    (l.flatMap f).length = c * l.length := by
  induction l with
  | nil => rfl
  | cons x l ih =>
    rw [List.flatMap_cons, List.length_append, hf, ih, List.length_cons, Nat.mul_succ, Nat.add_comm]

theorem drop_blocks (hf : ∀ x, (f x).length = c) (l : List α) (k : Nat) :
    (l.flatMap f).drop (c * k) = (l.drop k).flatMap f := by
  rcases Nat.lt_or_ge l.length k with hlt | hle
  · have hlen : (l.flatMap f).length ≤ c * k := by
      rw [length_blocks hf]
      exact Nat.mul_le_mul_left c (Nat.le_of_lt hlt)
    rw [List.drop_of_length_le hlen, List.drop_of_length_le (Nat.le_of_lt hlt), List.flatMap_nil]
  · conv => lhs; rw [← List.take_append_drop k l, List.flatMap_append]
    rw [List.drop_left' (by rw [length_blocks hf, List.length_take_of_le hle])]

theorem take_blocks (hf : ∀ x, (f x).length = c) (l : List α) (k : Nat) :
    (l.flatMap f).take (c * k) = (l.take k).flatMap f := by
  rcases Nat.lt_or_ge l.length k with hlt | hle
  · have hlen : (l.flatMap f).length ≤ c * k := by
      rw [length_blocks hf]
      exact Nat.mul_le_mul_left c (Nat.le_of_lt hlt)
    rw [List.take_of_length_le hlen, List.take_of_length_le (Nat.le_of_lt hlt)]
  · conv => lhs; rw [← List.take_append_drop k l, List.flatMap_append]
    rw [List.take_left' (by rw [length_blocks hf, List.length_take_of_le hle])]

/-- Position `i` of block `k`. -/
theorem getElem?_blocks (hf : ∀ x, (f x).length = c) {l : List α} {k : Nat} (hk : k < l.length)
    {i : Nat} (hi : i < c) : (l.flatMap f)[c * k + i]? = (f l[k])[i]? := by
  rw [← List.getElem?_drop, drop_blocks hf, List.drop_eq_getElem_cons hk, List.flatMap_cons,
    List.getElem?_append_left (by rw [hf]; exact hi)]

/-- Blocks that determine their elements determine the list. -/
theorem blocks_injective (hf : ∀ x, (f x).length = c) (hinj : Function.Injective f) :
    ∀ {l l' : List α}, l.length = l'.length → l.flatMap f = l'.flatMap f → l = l'
  | [], [], _, _ => rfl
  | [], _ :: _, hlen, _ => by cases hlen
  | _ :: _, [], hlen, _ => by cases hlen
  | x :: l, x' :: l', hlen, h => by
    rw [List.flatMap_cons, List.flatMap_cons] at h
    obtain ⟨hx, hl⟩ := List.append_inj h ((hf x).trans (hf x').symm)
    rw [hinj hx, blocks_injective hf hinj (Nat.succ.inj hlen) hl]

end FlashFloppyTestbed.Foundation
