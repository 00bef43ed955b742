/-
  Disk/Coding.lean --- words of a track, and the bytes they stand for.

  An `Item` is a byte of a track with the way its word was written: as the MFM
  code of the byte behind the byte before it, as `0x4489` in place of `0xa1`, or
  at a seam, where the byte before it may since have been rewritten.  `Coded y l
  ws` says that the words `ws` are the items `l`, behind a data bit `y`.

  Three clear bitcells around a clock position are found in a `0x4489` only, or
  in front of a seam (`WordOk.missing_clock`, `WordOk.missing_first`).
-/
import FlashFloppyTestbed.Mfm

set_option autoImplicit false

namespace FlashFloppyTestbed

open FlashFloppyTestbed.Foundation

/-- How the word of a byte was written. -/
inductive Tag where
  | coded
  | seam
  | sync
  deriving DecidableEq

/-- A byte of a track. -/
structure Item where
  tag : Tag
  byte : Byte
  deriving DecidableEq

/-- The sync word: `0xa1` without one of its clock bits. -/
def syncWord : BitVec 16 := 0x4489

/-- `w` is the word of an item behind a data bit `y`. -/
def WordOk (y : Bool) (it : Item) (w : BitVec 16) : Prop :=
  match it.tag with
  | .coded => w = mfmWord y it.byte
  | .seam => ∃ y', w = mfmWord y' it.byte
  | .sync => it.byte = 0xa1 ∧ w = syncWord

/-- The words of some items behind a data bit `y`. -/
inductive Coded : Bool → List Item → List (BitVec 16) → Prop where
  | nil (y : Bool) : Coded y [] []
  | cons {y : Bool} {it : Item} {w : BitVec 16} {l : List Item} {ws : List (BitVec 16)} :
      WordOk y it w → Coded (it.byte.getLsbD 0) l ws → Coded y (it :: l) (w :: ws)

/-- The bytes of some items. -/
def itemBytes (l : List Item) : List Byte := l.map Item.byte

@[simp] theorem itemBytes_append (l₁ l₂ : List Item) :
    itemBytes (l₁ ++ l₂) = itemBytes l₁ ++ itemBytes l₂ :=
  List.map_append

@[simp] theorem length_itemBytes (l : List Item) : (itemBytes l).length = l.length :=
  List.length_map _

/-- A run of code words. -/
def codedItems (l : List Byte) : List Item := l.map (⟨.coded, ·⟩)

/-- A run of code words of which the first is at a seam. -/
def seamItems : List Byte → List Item
  | [] => []
  | x :: l => ⟨.seam, x⟩ :: codedItems l

/-- The three sync words of a mark. -/
def syncItems : List Item := List.replicate 3 ⟨.sync, 0xa1⟩

@[simp] theorem itemBytes_codedItems (l : List Byte) : itemBytes (codedItems l) = l := by
  simp [itemBytes, codedItems, Function.comp_def]

@[simp] theorem itemBytes_seamItems (l : List Byte) : itemBytes (seamItems l) = l := by
  cases l with
  | nil => rfl
  | cons x l => exact congrArg (x :: ·) (itemBytes_codedItems l)

@[simp] theorem length_codedItems (l : List Byte) : (codedItems l).length = l.length :=
  List.length_map _

@[simp] theorem length_seamItems (l : List Byte) : (seamItems l).length = l.length := by
  cases l <;> simp [seamItems]

/-! ## Single words -/

namespace WordOk

variable {y : Bool} {it : Item} {w : BitVec 16}

theorem data (h : WordOk y it w) {k : Nat} (hk : k < 8) :
    w.getMsbD (2 * k + 1) = it.byte.getMsbD k := by
  unfold WordOk at h
  split at h
  · rw [h, mfmWord_data _ _ hk]
  · obtain ⟨y', rfl⟩ := h
    exact mfmWord_data _ _ hk
  · rw [h.1, h.2]
    interval_cases k <;> rfl

theorem decode (h : WordOk y it w) : mfmtobin w = it.byte := by
  apply BitVec.eq_of_getMsbD_eq
  intro k hk
  rw [mfmtobin_getMsbD w hk, h.data hk]

theorem lsb (h : WordOk y it w) : w.getLsbD 0 = it.byte.getLsbD 0 := by
  have hlast := h.data (k := 7) (by decide)
  rw [BitVec.getMsbD_eq_getLsbD, BitVec.getMsbD_eq_getLsbD] at hlast
  simpa using hlast

/-- Three clear bitcells around a clock position within a word. -/
theorem missing_clock (h : WordOk y it w) {k : Nat} (hpos : 0 < k) (hk : k < 8)
    (hbefore : w.getMsbD (2 * k - 1) = false) (hclock : w.getMsbD (2 * k) = false)
    (hdata : w.getMsbD (2 * k + 1) = false) : it.tag = .sync ∧ k = 5 := by
  -- a code word has a clock bit there
  have hcode : ∀ y' x, w ≠ mfmWord y' x := by
    rintro y' x rfl
    have hx : x.getMsbD (k - 1) = false := by
      rw [← mfmWord_data y' x (by omega), show 2 * (k - 1) + 1 = 2 * k - 1 by omega]
      exact hbefore
    rw [mfmWord_clock y' x hk, bitBefore, if_neg (by omega), hx, ← mfmWord_data y' x hk,
      hdata] at hclock
    exact absurd hclock (by decide)
  unfold WordOk at h
  split at h
  · exact absurd h (hcode _ _)
  · obtain ⟨y', h⟩ := h
    exact absurd h (hcode _ _)
  · rename_i htag
    refine ⟨htag, ?_⟩
    rw [h.2] at hclock hdata hbefore
    revert hbefore hclock hdata
    interval_cases k <;> decide

/-- Three clear bitcells around the first clock position of a word. -/
theorem missing_first (h : WordOk false it w) (hclock : w.getMsbD 0 = false)
    (hdata : w.getMsbD 1 = false) : it.tag = .seam := by
  unfold WordOk at h
  split at h
  · rw [h] at hclock hdata
    have hfirst := mfmWord_clock false it.byte (k := 0) (by decide)
    have hmsb := mfmWord_data false it.byte (k := 0) (by decide)
    rw [hdata] at hmsb
    rw [hclock, ← hmsb, bitBefore, if_pos rfl] at hfirst
    exact absurd hfirst (by decide)
  · assumption
  · rw [h.2] at hdata
    exact absurd hdata (by decide)

/-- Only a sync item has the sync word. -/
theorem eq_syncWord_iff (h : WordOk y it w) : w = syncWord ↔ it.tag = .sync := by
  refine ⟨fun hw => ?_, fun htag => ?_⟩
  · rw [hw] at h
    exact (h.missing_clock (k := 5) (by decide) (by decide) (by decide) (by decide)
      (by decide)).1
  · unfold WordOk at h
    rw [htag] at h
    exact h.2

end WordOk

/-! ## Sequences of words -/

namespace Coded

variable {y : Bool} {l l₁ l₂ : List Item} {ws ws₁ ws₂ : List (BitVec 16)}

theorem length_eq (h : Coded y l ws) : ws.length = l.length := by
  induction h with
  | nil => rfl
  | cons _ _ ih => rw [List.length_cons, List.length_cons, ih]

theorem decode (h : Coded y l ws) : ws.map mfmtobin = itemBytes l := by
  induction h with
  | nil => rfl
  | cons hw _ ih => rw [List.map_cons, hw.decode, ih]; rfl

theorem append (h₁ : Coded y l₁ ws₁) (h₂ : Coded (lastBit y (itemBytes l₁)) l₂ ws₂) :
    Coded y (l₁ ++ l₂) (ws₁ ++ ws₂) := by
  induction h₁ with
  | nil => exact h₂
  | @cons y it w l ws hw _ ih =>
    refine .cons hw (ih ?_)
    rw [show itemBytes (it :: l) = it.byte :: itemBytes l from rfl, lastBit_cons] at h₂
    exact h₂

theorem split (h : Coded y (l₁ ++ l₂) ws) :
    ∃ ws₁ ws₂, ws = ws₁ ++ ws₂ ∧ Coded y l₁ ws₁ ∧ Coded (lastBit y (itemBytes l₁)) l₂ ws₂ := by
  induction l₁ generalizing y ws with
  | nil => exact ⟨[], ws, rfl, .nil y, h⟩
  | cons it l₁ ih =>
    obtain _ | ⟨hw, hrest⟩ := h
    obtain ⟨ws₁, ws₂, rfl, h₁, h₂⟩ := ih hrest
    refine ⟨_ :: ws₁, ws₂, rfl, .cons hw h₁, ?_⟩
    rw [show itemBytes (it :: l₁) = it.byte :: itemBytes l₁ from rfl, lastBit_cons]
    exact h₂

/-- In front of a seam, anything may stand. -/
theorem seam_congr {it : Item} (htag : it.tag = .seam) (h : Coded y (it :: l) ws) (y' : Bool) :
    Coded y' (it :: l) ws := by
  obtain _ | ⟨hw, hrest⟩ := h
  refine .cons ?_ hrest
  unfold WordOk at hw ⊢
  rw [htag] at hw ⊢
  exact hw

/-- The word at a position stands behind the last bit of the bytes before it. -/
theorem wordOk (h : Coded y l ws) {q : Nat} (hq : q < l.length) (hq' : q < ws.length) :
    WordOk (lastBit y (itemBytes (l.take q))) l[q] ws[q] := by
  induction h generalizing q with
  | nil => exact absurd hq (Nat.not_lt_zero q)
  | @cons y it w l ws hw hrest ih =>
    cases q with
    | zero => exact hw
    | succ q =>
      have hrec := ih (q := q) (by simpa using hq) (by simpa using hq')
      rw [List.take_succ_cons, itemBytes, List.map_cons, lastBit_cons]
      exact hrec

/-- The word behind another one. -/
theorem wordOk_succ (h : Coded y l ws) {q : Nat} (hq : q + 1 < l.length)
    (hq' : q + 1 < ws.length) : WordOk (ws[q].getLsbD 0) l[q + 1] ws[q + 1] := by
  have hbit : lastBit y (itemBytes (l.take (q + 1))) = ws[q].getLsbD 0 := by
    rw [(h.wordOk (q := q) (by omega) (by omega)).lsb,
      List.take_succ_eq_append_getElem (by omega), itemBytes_append, lastBit, List.getLast?_append]
    rfl
  rw [← hbit]
  exact h.wordOk hq hq'

end Coded

/-! ## Writing items -/

/-- The words of freshly written items. -/
def trackWords (y : Bool) : List Item → List (BitVec 16)
  | [] => []
  | it :: l =>
      (if it.tag = .sync then syncWord else mfmWord y it.byte) ::
        trackWords (it.byte.getLsbD 0) l

@[simp] theorem length_trackWords (y : Bool) (l : List Item) :
    (trackWords y l).length = l.length := by
  induction l generalizing y with
  | nil => rfl
  | cons it l ih => rw [trackWords, List.length_cons, ih, List.length_cons]

theorem coded_trackWords (y : Bool) {l : List Item}
    (hsync : ∀ it ∈ l, it.tag = .sync → it.byte = 0xa1) : Coded y l (trackWords y l) := by
  induction l generalizing y with
  | nil => exact .nil y
  | cons it l ih =>
    refine .cons ?_ (ih _ fun it' hit => hsync it' (List.mem_cons_of_mem it hit))
    have hbyte := hsync it List.mem_cons_self
    obtain ⟨tag, x⟩ := it
    cases tag with
    | coded => exact rfl
    | seam => exact ⟨y, rfl⟩
    | sync => exact ⟨hbyte rfl, rfl⟩

/-- They are the code words, except at the sync words. -/
theorem getElem_trackWords (y : Bool) (l : List Item) (i : Nat)
    (h : i < (trackWords y l).length) (hitem : i < l.length)
    (hcode : i < (mfmWords y (itemBytes l)).length) :
    (trackWords y l)[i] =
      if (l[i]).tag = .sync then syncWord else (mfmWords y (itemBytes l))[i] := by
  induction l generalizing y i with
  | nil => exact absurd hitem (Nat.not_lt_zero i)
  | cons it l ih =>
    cases i with
    | zero => rfl
    | succ i =>
      exact ih _ i (Nat.lt_of_succ_lt_succ h) (Nat.lt_of_succ_lt_succ hitem)
        (Nat.lt_of_succ_lt_succ hcode)

/-- Code words are written as such. -/
theorem coded_codedItems_iff {y : Bool} {l : List Byte} {ws : List (BitVec 16)} :
    Coded y (codedItems l) ws ↔ ws = mfmWords y l := by
  induction l generalizing y ws with
  | nil =>
    refine ⟨fun h => ?_, fun h => ?_⟩
    · cases h
      rfl
    · rw [h]
      exact .nil y
  | cons x l ih =>
    refine ⟨fun h => ?_, fun h => ?_⟩
    · obtain _ | ⟨hw, hrest⟩ := h
      rw [ih.mp hrest, show _ = mfmWord y x from hw]
      rfl
    · rw [h]
      exact .cons rfl (ih.mpr rfl)

/-! ## Where the sync words are -/

/-- The sync items are the runs of three at the given offsets. -/
structure MarksAt (l : List Item) (offs : List Nat) : Prop where
  iff : ∀ i, ∀ h : i < l.length, (l[i]).tag = .sync ↔ ∃ off ∈ offs, off ≤ i ∧ i < off + 3
  inside : ∀ off ∈ offs, off + 3 ≤ l.length

namespace MarksAt

variable {l l' : List Item} {offs offs' : List Nat}

theorem nil (h : ∀ it ∈ l, it.tag ≠ .sync) : MarksAt l [] where
  iff := fun _ hi => ⟨fun htag => absurd htag (h _ (List.getElem_mem hi)),
    fun ⟨_, hoff, _⟩ => absurd hoff List.not_mem_nil⟩
  inside := fun _ hoff => absurd hoff List.not_mem_nil

theorem codedItems (l : List Byte) : MarksAt (codedItems l) [] := by
  refine nil fun it hit => ?_
  obtain ⟨x, _, rfl⟩ := List.mem_map.mp hit
  exact fun htag => by cases htag

theorem seamItems (l : List Byte) : MarksAt (seamItems l) [] := by
  refine nil fun it hit => ?_
  cases l with
  | nil => exact absurd hit List.not_mem_nil
  | cons x l =>
    rcases List.mem_cons.mp hit with rfl | hit
    · exact fun htag => by cases htag
    · obtain ⟨x, _, rfl⟩ := List.mem_map.mp hit
      exact fun htag => by cases htag

theorem syncItems : MarksAt syncItems [0] where
  iff := by
    intro i hi
    have hi : i < 3 := hi
    interval_cases i <;> simp [FlashFloppyTestbed.syncItems]
  inside := by
    intro off hoff
    rw [List.mem_singleton.mp hoff]
    exact Nat.le_refl 3

theorem append (h : MarksAt l offs) (h' : MarksAt l' offs') :
    MarksAt (l ++ l') (offs ++ offs'.map (l.length + ·)) where
  iff := by
    intro i hi
    rw [List.length_append] at hi
    by_cases hlt : i < l.length
    · rw [List.getElem_append_left hlt, h.iff i hlt]
      refine ⟨fun ⟨off, hoff, hin⟩ => ⟨off, List.mem_append_left _ hoff, hin⟩,
        fun ⟨off, hoff, hin⟩ => ?_⟩
      rcases List.mem_append.mp hoff with hoff | hoff
      · exact ⟨off, hoff, hin⟩
      · obtain ⟨off', _, rfl⟩ := List.mem_map.mp hoff
        omega
    · rw [List.getElem_append_right (by omega), h'.iff _ (by omega)]
      refine ⟨fun ⟨off, hoff, hin⟩ => ⟨l.length + off,
        List.mem_append_right _ (List.mem_map_of_mem hoff), by omega⟩, fun ⟨off, hoff, hin⟩ => ?_⟩
      rcases List.mem_append.mp hoff with hoff | hoff
      · have := h.inside off hoff
        omega
      · obtain ⟨off', hoff', rfl⟩ := List.mem_map.mp hoff
        exact ⟨off', hoff', by omega⟩
  inside := by
    intro off hoff
    rw [List.length_append]
    rcases List.mem_append.mp hoff with hoff | hoff
    · have := h.inside off hoff
      omega
    · obtain ⟨off', hoff', rfl⟩ := List.mem_map.mp hoff
      have := h'.inside off' hoff'
      omega

end MarksAt

end FlashFloppyTestbed
