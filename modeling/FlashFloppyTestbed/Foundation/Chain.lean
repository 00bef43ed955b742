/-
  Foundation/Chain.lean --- singly linked lists whose nodes carry their own link
  field, walked through a pointer to the link that is read next.

  `Links` is a head pointer and the link fields of all nodes there are; a link
  field is null, points to a node, or holds the mark of a node that is in no
  list.  `Spells h p l` says that the links from `p` on are exactly the nodes
  `l`, so that `Spells h h.head l` with `l.Nodup` describes a finite, acyclic
  list.  `walk` is the loop `for (pp = &head; !stop(*pp); pp = &(*pp)->next)`,
  and `splice` says what a store through the slot it ends at does.
-/
import Mathlib.Data.List.Nodup
import Mathlib.Data.List.Sort
import Mathlib.Data.List.TakeWhile
import Mathlib.Logic.Function.Basic
import Mathlib.Tactic.Common

set_option autoImplicit false

namespace FlashFloppyTestbed.Foundation

/-- What a link field holds. -/
inductive Link (α : Type) where
  | null
  /-- the mark of a node that is in no list -/
  | detached
  | node (a : α)
  deriving DecidableEq

/-- The address of a link: the head pointer, or the link field of a node. -/
inductive Slot (α : Type) where
  | head
  | next (a : α)

/-- A head pointer and the link fields of all nodes. -/
structure Links (α : Type) where
  head : Link α
  next : α → Link α

variable {α : Type}

namespace Links

/-- `*pp`. -/
def read (h : Links α) : Slot α → Link α
  | .head => h.head
  | .next a => h.next a

/-- `*pp = v`. -/
def write [DecidableEq α] (h : Links α) (p : Slot α) (v : Link α) : Links α :=
  match p with
  | .head => { h with head := v }
  | .next a => { h with next := Function.update h.next a v }

/-- Walk from slot `p` to the first slot whose link satisfies `stop`; `none` is a
walk through a link that points to no node, or one that goes on too long. -/
def walk (h : Links α) (stop : Link α → Bool) : Nat → Slot α → Option (Slot α)
  | 0, _ => none
  | fuel + 1, p =>
      if stop (h.read p) then some p
      else
        match h.read p with
        | .node a => h.walk stop fuel (.next a)
        | _ => none

/-- The links from `p` on are exactly the nodes `l`. -/
def Spells (h : Links α) : Link α → List α → Prop
  | p, [] => p = .null
  | p, a :: l => p = .node a ∧ Spells h (h.next a) l

/-- The slot behind the nodes `l`, on a walk that starts at slot `p`. -/
def slotAfter (p : Slot α) : List α → Slot α
  | [] => p
  | a :: l => slotAfter (.next a) l

/-- The link to the first node of a list. -/
def firstLink : List α → Link α
  | [] => .null
  | a :: _ => .node a

variable {h h' : Links α} {p : Link α} {s : Slot α} {l l₁ l₂ : List α}

theorem Spells.eq_firstLink (hl : h.Spells p l) : p = firstLink l := by
  cases l with
  | nil => exact hl
  | cons a l => exact hl.1

/-- A link spells one list only. -/
theorem Spells.unique : ∀ {l l' : List α} {p : Link α}, h.Spells p l → h.Spells p l' → l = l' := by
  intro l
  induction l with
  | nil =>
    intro l' p hl hl'
    cases l' with
    | nil => rfl
    | cons b l' => cases hl.symm.trans hl'.1
  | cons a l ih =>
    intro l' p hl hl'
    cases l' with
    | nil => cases hl.1.symm.trans hl'
    | cons b l' =>
      cases hl.1.symm.trans hl'.1
      rw [ih hl.2 hl'.2]

/-- A node of a list does not carry the mark. -/
theorem Spells.next_ne_detached : ∀ {l : List α} {p : Link α}, h.Spells p l →
    ∀ {a : α}, a ∈ l → h.next a ≠ .detached := by
  intro l
  induction l with
  | nil => intro p _ a ha; cases ha
  | cons b l ih =>
    intro p hl a ha
    rcases List.mem_cons.mp ha with rfl | ha
    · rw [hl.2.eq_firstLink]
      cases l <;> exact fun hmark => by cases hmark
    · exact ih hl.2 ha

theorem Spells.congr : ∀ {l : List α} {p : Link α}, h.Spells p l →
    (∀ a ∈ l, h'.next a = h.next a) → h'.Spells p l := by
  intro l
  induction l with
  | nil => exact fun hl _ => hl
  | cons a l ih =>
    intro p hl hsame
    refine ⟨hl.1, ?_⟩
    rw [hsame a List.mem_cons_self]
    exact ih hl.2 fun b hb => hsame b (List.mem_cons_of_mem a hb)

/-- The rest of a list hangs on the slot behind its front. -/
theorem Spells.drop : ∀ {l₁ : List α} {s : Slot α}, h.Spells (h.read s) (l₁ ++ l₂) →
    h.Spells (h.read (slotAfter s l₁)) l₂ := by
  intro l₁
  induction l₁ with
  | nil => exact fun hl => hl
  | cons a l₁ ih => exact fun hl => ih (s := .next a) hl.2

/-- A walk stops behind the nodes that do not stop it. -/
theorem walk_eq (stop : Link α → Bool) (hstop : stop (firstLink l₂) = true) :
    ∀ {l₁ : List α} {s : Slot α} {fuel : Nat}, h.Spells (h.read s) (l₁ ++ l₂) →
      (∀ a ∈ l₁, stop (.node a) = false) → l₁.length < fuel →
      h.walk stop fuel s = some (slotAfter s l₁) := by
  intro l₁
  induction l₁ with
  | nil =>
    intro s fuel hl _ hfuel
    obtain ⟨fuel, rfl⟩ : ∃ f, fuel = f + 1 := ⟨fuel - 1, by omega⟩
    have hfirst : h.read s = firstLink l₂ := Spells.eq_firstLink hl
    rw [walk, hfirst, if_pos hstop]
    rfl
  | cons a l₁ ih =>
    intro s fuel hl hpass hfuel
    obtain ⟨fuel, rfl⟩ : ∃ f, fuel = f + 1 := ⟨fuel - 1, by omega⟩
    have hgo := hpass a List.mem_cons_self
    rw [walk, hl.1, if_neg (by rw [hgo]; exact Bool.false_ne_true)]
    exact ih (s := .next a) hl.2 (fun b hb => hpass b (List.mem_cons_of_mem a hb))
      (by simpa using hfuel)

theorem slotAfter_eq (a : α) : ∀ l : List α, ∃ b ∈ a :: l, slotAfter (.next a) l = .next b := by
  intro l
  induction l generalizing a with
  | nil => exact ⟨a, List.mem_cons_self, rfl⟩
  | cons c l ih =>
    obtain ⟨b, hb, hslot⟩ := ih c
    exact ⟨b, List.mem_cons_of_mem a hb, hslot⟩

/-- The slot behind `l` belongs to the start of the walk or to a node of `l`. -/
theorem slotAfter_ne {b : α} (hs : s ≠ .next b) (hb : b ∉ l) : slotAfter s l ≠ .next b := by
  cases l with
  | nil => exact hs
  | cons a l =>
    obtain ⟨c, hc, hslot⟩ := slotAfter_eq a l
    show slotAfter (.next a) l ≠ _
    rw [hslot]
    intro heq
    cases heq
    exact hb hc

section Write

variable [DecidableEq α]

@[simp] theorem read_write (v : Link α) : (h.write s v).read s = v := by
  cases s <;> simp [write, read]

theorem next_write_of_ne {v : Link α} {b : α} (hne : s ≠ .next b) :
    (h.write s v).next b = h.next b := by
  cases s with
  | head => rfl
  | next a => exact Function.update_of_ne (fun heq : b = a => hne (by rw [heq])) v h.next

theorem read_write_of_ne {v : Link α} {t : Slot α} (hne : s ≠ t) :
    (h.write s v).read t = h.read t := by
  cases t with
  | head =>
    cases s with
    | head => exact absurd rfl hne
    | next a => rfl
  | next b => exact next_write_of_ne hne

/-- **Storing `q` behind the nodes `l₁`** replaces what followed them by what `q`
spells. -/
theorem splice {q : Link α} {l' : List α} (hq : h.Spells q l₂) : ∀ {l₁ : List α} {s : Slot α},
    h.Spells (h.read s) (l₁ ++ l') → (l₁ ++ l₂).Nodup → (∀ a, s = .next a → a ∉ l₁ ++ l₂) →
    (h.write (slotAfter s l₁) q).Spells ((h.write (slotAfter s l₁) q).read s) (l₁ ++ l₂) := by
  intro l₁
  induction l₁ with
  | nil =>
    intro s _ _ hfresh
    show (h.write s q).Spells ((h.write s q).read s) l₂
    rw [read_write]
    exact hq.congr fun b hb => next_write_of_ne fun heq => hfresh b heq hb
  | cons a l₁ ih =>
    intro s hl hnd hfresh
    have hnd' := List.nodup_cons.mp hnd
    have hslot : slotAfter (.next a) l₁ ≠ s := by
      obtain ⟨b, hb, hslot⟩ := slotAfter_eq a l₁
      rw [hslot]
      intro heq
      exact hfresh b heq.symm (List.mem_append_left l₂ hb)
    refine ⟨?_, ih (s := .next a) hl.2 hnd'.2 ?_⟩
    · show (h.write (slotAfter (.next a) l₁) q).read s = .node a
      rw [read_write_of_ne hslot]
      exact hl.1
    · intro b heq
      cases heq
      exact hnd'.1

/-! ## Taking a node out and putting one in -/

/-- Find the slot that points to `a`, let it point past `a`, and mark `a`. -/
def remove (h : Links α) (fuel : Nat) (a : α) : Option (Links α) :=
  (h.walk (fun p => decide (p = .node a)) fuel .head).map fun s =>
    (h.write s (h.next a)).write (.next a) .detached

/-- Put `a` in front of the first link that satisfies `stop`. -/
def insert (h : Links α) (stop : Link α → Bool) (fuel : Nat) (a : α) : Option (Links α) :=
  (h.walk stop fuel .head).map fun s => (h.write (.next a) (h.read s)).write s (.node a)

/-- Let the head pointer point past `a`, and mark `a`. -/
def pop (h : Links α) (a : α) : Links α := (h.write .head (h.next a)).write (.next a) .detached

theorem remove_spec {a : α} {fuel : Nat} (hl : h.Spells h.head (l₁ ++ a :: l₂))
    (hnd : (l₁ ++ a :: l₂).Nodup) (hfuel : l₁.length < fuel) :
    ∃ h', h.remove fuel a = some h' ∧ h'.Spells h'.head (l₁ ++ l₂) ∧ h'.next a = .detached ∧
      ∀ b, b ∉ l₁ ++ a :: l₂ → h'.next b = h.next b := by
  have hmid := List.nodup_middle.mp hnd
  obtain ⟨ha, hnd'⟩ := List.nodup_cons.mp hmid
  have hpass : ∀ b ∈ l₁, decide (Link.node b = Link.node a) = false := by
    intro b hb
    refine decide_eq_false fun heq => ?_
    cases heq
    exact ha (List.mem_append_left l₂ hb)
  have hstop : decide (firstLink (a :: l₂) = .node a) = true := decide_eq_true rfl
  have hwalk : h.walk (fun p => decide (p = .node a)) fuel .head = some (slotAfter .head l₁) :=
    walk_eq (fun p => decide (p = .node a)) hstop hl hpass hfuel
  refine ⟨_, by rw [remove, hwalk, Option.map_some], ?_, ?_, fun b hb => ?_⟩
  · have hq : h.Spells (h.next a) l₂ := (Spells.drop (s := .head) hl).2
    have hspliced := splice (s := .head) hq hl hnd' (fun b heq => by cases heq)
    exact hspliced.congr fun b hb => next_write_of_ne fun heq => by
      cases heq
      exact ha hb
  · show (Links.write _ (.next a) .detached).read (.next a) = _
    rw [read_write]
  · rw [List.mem_append, List.mem_cons, not_or, not_or] at hb
    rw [next_write_of_ne (fun heq => by cases heq; exact hb.2.1 rfl),
      next_write_of_ne (slotAfter_ne (fun heq => by cases heq) hb.1)]

theorem insert_spec {a : α} {fuel : Nat} {stop : Link α → Bool}
    (hl : h.Spells h.head (l₁ ++ l₂)) (hnd : (l₁ ++ l₂).Nodup) (ha : a ∉ l₁ ++ l₂)
    (hpass : ∀ b ∈ l₁, stop (.node b) = false) (hstop : stop (firstLink l₂) = true)
    (hfuel : l₁.length < fuel) :
    ∃ h', h.insert stop fuel a = some h' ∧ h'.Spells h'.head (l₁ ++ a :: l₂) ∧
      ∀ b, b ∉ l₁ ++ a :: l₂ → h'.next b = h.next b := by
  have hwalk : h.walk stop fuel .head = some (slotAfter .head l₁) :=
    walk_eq stop hstop hl hpass hfuel
  refine ⟨_, by rw [insert, hwalk, Option.map_some], ?_, fun b hb => ?_⟩
  · -- first the new node's own link, then the slot in front of it
    have hrest : h.Spells (h.read (slotAfter .head l₁)) l₂ := Spells.drop (s := .head) hl
    have hkeep : ∀ b ∈ l₁ ++ l₂,
        (h.write (.next a) (h.read (slotAfter .head l₁))).next b = h.next b := by
      intro b hb
      refine next_write_of_ne fun heq => ?_
      cases heq
      exact ha hb
    have hnew : (h.write (.next a) (h.read (slotAfter .head l₁))).Spells (.node a) (a :: l₂) := by
      refine ⟨rfl, ?_⟩
      have hnext : (h.write (.next a) (h.read (slotAfter .head l₁))).next a =
          h.read (slotAfter .head l₁) := read_write (s := .next a) _
      rw [hnext]
      exact hrest.congr fun b hb => hkeep b (List.mem_append_right l₁ hb)
    have hold : (h.write (.next a) (h.read (slotAfter .head l₁))).Spells
        ((h.write (.next a) (h.read (slotAfter .head l₁))).read .head) (l₁ ++ l₂) :=
      Spells.congr (h := h) hl hkeep
    exact splice (s := .head) hnew hold (List.nodup_middle.mpr (List.nodup_cons.mpr ⟨ha, hnd⟩))
      (fun b heq => by cases heq)
  · rw [List.mem_append, List.mem_cons, not_or, not_or] at hb
    rw [next_write_of_ne (slotAfter_ne (fun heq => by cases heq) hb.1),
      next_write_of_ne (fun heq => by cases heq; exact hb.2.1 rfl)]

/-- The first node is taken out of the list. -/
theorem pop_spec {a : α} (hl : h.Spells h.head (a :: l)) (hnd : (a :: l).Nodup) :
    (h.pop a).Spells (h.pop a).head l ∧ (h.pop a).next a = .detached ∧
      ∀ b ∉ a :: l, (h.pop a).next b = h.next b := by
  have hfirst : h.remove 1 a = some (h.pop a) := by
    have hstop : h.walk (fun p => decide (p = .node a)) 1 .head = some .head :=
      if_pos (decide_eq_true hl.1)
    rw [remove, hstop]
    rfl
  have hfront : ([] : List α).length < 1 := Nat.zero_lt_one
  obtain ⟨h', hremove, hspec⟩ := remove_spec hl hnd hfront
  rw [hfirst] at hremove
  cases hremove
  exact hspec

/-- A node of the list is taken out of it. -/
theorem remove_erase {a : α} {fuel : Nat} (hl : h.Spells h.head l) (hnd : l.Nodup) (ha : a ∈ l)
    (hfuel : l.length ≤ fuel) :
    ∃ h', h.remove fuel a = some h' ∧ h'.Spells h'.head (l.erase a) ∧ h'.next a = .detached ∧
      ∀ b ∉ l, h'.next b = h.next b := by
  obtain ⟨l₁, l₂, rfl⟩ := List.append_of_mem ha
  have hfront : a ∉ l₁ := fun hmem =>
    (List.nodup_cons.mp (List.nodup_middle.mp hnd)).1 (List.mem_append_left l₂ hmem)
  have herase : (l₁ ++ a :: l₂).erase a = l₁ ++ l₂ := by
    rw [List.erase_append_right _ hfront, List.erase_cons_head]
  rw [herase]
  refine remove_spec hl hnd ?_
  rw [List.length_append, List.length_cons] at hfuel
  omega

/-- **Sorted insertion**: where the walk stops at the first node that is not below
the new one, the list is the insertion of the new node. -/
theorem insert_ordered {r : α → α → Prop} [DecidableRel r] {a : α} {fuel : Nat}
    {stop : Link α → Bool} (hl : h.Spells h.head l) (hnd : l.Nodup) (ha : a ∉ l)
    (hnull : stop .null = true) (hnode : ∀ b, stop (.node b) = decide (r a b))
    (hfuel : l.length < fuel) :
    ∃ h', h.insert stop fuel a = some h' ∧ h'.Spells h'.head (l.orderedInsert r a) ∧
      ∀ b ∉ l.orderedInsert r a, h'.next b = h.next b := by
  rw [List.orderedInsert_eq_take_drop]
  have hsplit := List.takeWhile_append_dropWhile (p := fun b => decide ¬ r a b) (l := l)
  refine insert_spec (by rw [hsplit]; exact hl) (by rw [hsplit]; exact hnd)
    (by rw [hsplit]; exact ha) (fun b hb => ?_) ?_ ?_
  · have hpass := List.mem_takeWhile_imp hb
    rw [hnode]
    simpa using hpass
  · cases hrest : l.dropWhile fun b => decide ¬ r a b with
    | nil => exact hnull
    | cons b rest =>
      have hnot := List.head_dropWhile_not (fun b => decide ¬ r a b) (l := l)
        (by rw [hrest]; exact List.cons_ne_nil b rest)
      simp only [hrest, List.head_cons] at hnot
      show stop (.node b) = true
      rw [hnode]
      simpa using hnot
  · exact Nat.lt_of_le_of_lt (List.takeWhile_sublist _).length_le hfuel

end Write

end Links

end FlashFloppyTestbed.Foundation
