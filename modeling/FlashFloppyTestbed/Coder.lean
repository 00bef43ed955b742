/-
  Coder.lean --- the conversions of `src/mfm.c` and `src/fm.c`, and a bit-serial encoder.

  A bit-serial MFM encoder takes one data bit at a time and emits a clock bit, set
  between two clear data bits, and the data bit (`mfmSerial`).  `bin_to_mfm` leaves
  exactly its output, and `mfm_to_bin` takes the data bits back out, whatever the
  clock bits are (`bin_to_mfm_refines`).

  `mfm_check` compares each word with the code of its own data bits.  It carries
  the last data bit of the word before it along, except into word 0: the word in
  front of the buffer is loaded without `be16toh`, so that bit 8 is taken in place
  of bit 0.  The code is exact wherever that makes no difference
  (`mfm_check_exact`).
-/
import FlashFloppyTestbed.Fm

set_option autoImplicit false

namespace FlashFloppyTestbed

open FlashFloppyTestbed.Foundation

/-! ## A bit-serial encoder -/

/-- A bit-serial MFM encoder behind a data bit `y`: before each data bit, the clock
bit `NOR` of the data bits on both sides of it. -/
def mfmSerial : Bool → List Bool → List Bool
  | _, [] => []
  | y, b :: l => (!(y || b)) :: b :: mfmSerial b l

theorem mfmSerial_append (y : Bool) (l₁ l₂ : List Bool) :
    mfmSerial y (l₁ ++ l₂) = mfmSerial y l₁ ++ mfmSerial (l₁.getLastD y) l₂ := by
  induction l₁ generalizing y with
  | nil => rfl
  | cons b l₁ ih => rw [List.cons_append, mfmSerial, ih, mfmSerial, List.getLastD_cons]; rfl

/-- The word for a byte is what the encoder makes of its bits. -/
theorem bitsOf_mfmWord : ∀ (x : Byte) (y : Bool),
    bitsOf (mfmWord y x) = mfmSerial y (bitsOf x) := by
  decide +kernel

theorem getLastD_bitsOf : ∀ (x : Byte) (y : Bool), (bitsOf x).getLastD y = x.getLsbD 0 := by
  decide +kernel

theorem mfmWords_flatMap_bitsOf (y : Bool) (l : List Byte) :
    (mfmWords y l).flatMap bitsOf = mfmSerial y (l.flatMap bitsOf) := by
  induction l generalizing y with
  | nil => rfl
  | cons x l ih =>
    rw [mfmWords, List.flatMap_cons, List.flatMap_cons, ih, bitsOf_mfmWord, mfmSerial_append,
      getLastD_bitsOf]

/-! ## Encoding and decoding in place -/

/-- Two buffers of `nr` words have the same data bits. -/
def SameData (m m' : Mem) (p nr : Nat) : Prop :=
  ∀ i, i < nr → ∀ k, k < 8 →
    (m'.word (p + 2 * i)).getMsbD (2 * k + 1) = (m.word (p + 2 * i)).getMsbD (2 * k + 1)

/-- Only the data bits of a buffer are decoded. -/
theorem mfmToBin_congr {m m' : Mem} {p nr : Nat} (h : SameData m m' p nr) :
    (mfmToBin m' p nr).bytes p nr = (mfmToBin m p nr).bytes p nr := by
  rw [mfmToBin_bytes, mfmToBin_bytes, Mem.words, Mem.words, List.map_map, List.map_map]
  refine List.map_congr_left fun i hi => BitVec.eq_of_getMsbD_eq fun k hk => ?_
  rw [List.mem_range] at hi
  rw [Function.comp_apply, Function.comp_apply, mfmtobin_getMsbD _ hk, mfmtobin_getMsbD _ hk]
  exact h i hi k hk

theorem map_mfmtobin_mfmWords (y : Bool) (l : List Byte) : (mfmWords y l).map mfmtobin = l := by
  induction l generalizing y with
  | nil => rfl
  | cons x l ih => rw [mfmWords, List.map_cons, mfmtobin_mfmWord, ih]

theorem map_mfmtobin_fmCode (l : List Byte) : (l.map fmCode).map mfmtobin = l := by
  rw [List.map_map]
  exact (List.map_congr_left fun x _ => mfmtobin_fmCode x).trans (List.map_id l)

/-- **`bin_to_mfm` refines the bit-serial encoder**, in place, behind the last bit of
whatever byte is in front of the buffer; `mfm_to_bin` restores the bytes, also from a
buffer in which words have got other clock bits; and it restores them after
`bin_to_fm` as well. -/
theorem bin_to_mfm_refines (m : Mem) (p nr : Nat) :
    (binToMfm m p nr).bits p (2 * nr) = mfmSerial ((m (p - 1)).getLsbD 0) (m.bits p nr) ∧
    (mfmToBin (binToMfm m p nr) p nr).bytes p nr = m.bytes p nr ∧
    (∀ m', SameData (binToMfm m p nr) m' p nr →
      (mfmToBin m' p nr).bytes p nr = m.bytes p nr) ∧
    (fmToBin (binToFm m p nr) p nr).bytes p nr = m.bytes p nr ∧
    ∀ m', SameData (binToFm m p nr) m' p nr → (fmToBin m' p nr).bytes p nr = m.bytes p nr := by
  have hmfm : (mfmToBin (binToMfm m p nr) p nr).bytes p nr = m.bytes p nr := by
    rw [mfmToBin_bytes, binToMfm_words, map_mfmtobin_mfmWords]
  have hfm : (fmToBin (binToFm m p nr) p nr).bytes p nr = m.bytes p nr := by
    rw [fmToBin, mfmToBin_bytes, binToFm_words, map_mfmtobin_fmCode]
  refine ⟨?_, hmfm, fun m' h => (mfmToBin_congr h).trans hmfm, hfm,
    fun m' h => (mfmToBin_congr h).trans hfm⟩
  rw [← Mem.words_flatMap_bitsOf, binToMfm_words, mfmWords_flatMap_bitsOf]
  rfl

/-- A mark behind a byte 0x4e, with its first word replaced by the sync word. -/
theorem bin_to_mfm_refines_mark :
    (mfmToBin ((binToMfm (Mem.stBytes (fun _ => 0x4e) 1 [0xa1, 0xfe]) 1 2).st16 1
      (htobe16 0x4489)) 1 2).bytes 1 2 = [0xa1, 0xfe] :=
  (bin_to_mfm_refines (Mem.stBytes (fun _ => 0x4e) 1 [0xa1, 0xfe]) 1 2).2.2.1 _
    (by unfold SameData; decide)

/-! ## `mfm_check` -/

/-- A word is the code of its own data bits behind some data bit. -/
def IsCode (w : BitVec 16) : Prop := ∃ y, w = mfmWord y (mfmtobin w)

/-- The bit in front of a byte counts unless the byte begins with a set bit. -/
theorem mfmWord_congr_iff {y y' : Bool} {x : Byte} :
    mfmWord y x = mfmWord y' x ↔ y = y' ∨ x.getMsbD 0 = true := by
  refine ⟨fun h => ?_, fun h => ?_⟩
  · have hclock := mfmWord_clock y x (k := 0) (by decide)
    rw [h, mfmWord_clock y' x (by decide), bitBefore, if_pos rfl, bitBefore, if_pos rfl] at hclock
    revert hclock
    cases y <;> cases y' <;> cases x.getMsbD 0 <;> decide
  · rcases h with rfl | hset
    · rfl
    · exact mfmWord_of_msb hset y y'

/-- Two bits in front of a word tell the same about it: they are equal, or there is no
clock bit to tell, or it is wrong in any case. -/
theorem code_congr_iff {y y' : Bool} {w : BitVec 16} :
    (w ≠ mfmWord y (mfmtobin w) ↔ w ≠ mfmWord y' (mfmtobin w)) ↔
      y = y' ∨ w.getMsbD 1 = true ∨ ¬ IsCode w := by
  have hmsb : (mfmtobin w).getMsbD 0 = w.getMsbD 1 := mfmtobin_getMsbD w (by decide)
  constructor
  · intro h
    by_contra hnot
    rw [not_or, not_or, not_not] at hnot
    obtain ⟨hne, hclear, b, hb⟩ := hnot
    have hiff := not_iff_not.mp h
    -- the bit in front of a code word is the one or the other
    have hor : ∀ b y y' : Bool, y ≠ y' → b = y ∨ b = y' := by decide
    have hboth : w = mfmWord y (mfmtobin w) ∧ w = mfmWord y' (mfmtobin w) := by
      rcases hor b y y' hne with rfl | rfl
      · exact ⟨hb, hiff.mp hb⟩
      · exact ⟨hiff.mpr hb, hb⟩
    rcases mfmWord_congr_iff.mp (hboth.1.symm.trans hboth.2) with heq | hset
    · exact hne heq
    · exact hclear (hmsb.symm.trans hset)
  · rintro (rfl | hset | hnone)
    · exact Iff.rfl
    · rw [mfmWord_congr_iff.mpr (.inr (hmsb.trans hset))]
    · exact ⟨fun _ h => hnone ⟨y', h⟩, fun _ h => hnone ⟨y, h⟩⟩

/-- What the loop reports, by the bit it starts with. -/
theorem mem_mfmCheckLoop (m : Mem) (p : Nat) : ∀ (nr i : Nat) (a : BitVec 16) (j : Nat),
    j ∈ mfmCheckLoop m p nr i a ↔ i ≤ j ∧ j < i + nr ∧
      m.word (p + 2 * j) ≠ mfmWord (if j = i then a.getLsbD 0 else
        (m.word (p + 2 * (j - 1))).getLsbD 0) (mfmtobin (m.word (p + 2 * j))) := by
  intro nr
  induction nr with
  | zero =>
    intro i a j
    rw [mfmCheckLoop]
    constructor
    · intro h
      exact absurd h List.not_mem_nil
    · rintro ⟨hle, hlt, -⟩
      omega
  | succ nr ih =>
    intro i a j
    rw [mfmCheckLoop, List.mem_append, ih (i + 1), mfmCode_eq]
    by_cases hji : j = i
    · subst hji
      rw [if_pos rfl]
      constructor
      · rintro (h | ⟨hle, -⟩)
        · split at h
          · exact ⟨Nat.le_refl _, by omega, by assumption⟩
          · exact absurd h List.not_mem_nil
        · omega
      · rintro ⟨-, -, hne⟩
        rw [if_pos hne]
        exact .inl (List.mem_singleton_self j)
    · have hnot : j ∉ (if m.word (p + 2 * i) ≠ mfmWord (a.getLsbD 0)
          (mfmtobin (m.word (p + 2 * i))) then [i] else []) := by
        split
        · rw [List.mem_singleton]
          exact hji
        · exact List.not_mem_nil
      have hbit : (if j = i + 1 then (m.word (p + 2 * i)).getLsbD 0
          else (m.word (p + 2 * (j - 1))).getLsbD 0) = (m.word (p + 2 * (j - 1))).getLsbD 0 := by
        split
        · rename_i hj
          rw [hj, Nat.add_sub_cancel]
        · rfl
      rw [if_neg hji, hbit]
      constructor
      · intro h
        obtain ⟨hle, hlt, hne⟩ := h.resolve_left hnot
        exact ⟨by omega, by omega, hne⟩
      · rintro ⟨hle, hlt, hne⟩
        exact .inr ⟨by omega, by omega, hne⟩

section Check

variable (m : Mem) (p : Nat) {nr : Nat}

/-- Word 0 is checked behind bit 8 of the word in front: that word is loaded without
`be16toh`. -/
theorem mem_mfmCheck_zero (hpos : 0 < nr) :
    0 ∈ mfmCheck m (p + 2) nr ↔ m.word (p + 2) ≠
      mfmWord ((m.word p).getLsbD 8) (mfmtobin (m.word (p + 2))) := by
  have hbit : (m.ld16 p).getLsbD 0 = (m.word p).getLsbD 8 := by
    rw [Mem.ld16_lsb, BitVec.getMsbD_eq_getLsbD]
    rfl
  rw [mfmCheck, Nat.add_sub_cancel, mem_mfmCheckLoop, if_pos rfl, hbit, Nat.mul_zero, Nat.add_zero]
  constructor
  · intro h
    exact h.2.2
  · intro h
    exact ⟨Nat.le_refl 0, by omega, h⟩

/-- Every later word is checked behind the last bit of the word in front. -/
theorem mem_mfmCheck_of_ne_zero {i : Nat} (hi : i < nr) (hne : i ≠ 0) :
    i ∈ mfmCheck m (p + 2) nr ↔ m.word (p + 2 + 2 * i) ≠
      mfmWord ((m.word (p + 2 * i)).getLsbD 0) (mfmtobin (m.word (p + 2 + 2 * i))) := by
  rw [mfmCheck, Nat.add_sub_cancel, mem_mfmCheckLoop, if_neg hne,
    show p + 2 + 2 * (i - 1) = p + 2 * i by omega]
  constructor
  · intro h
    exact h.2.2
  · intro h
    exact ⟨Nat.zero_le i, by omega, h⟩

/-- After `bin_to_mfm` only the first word checked can be reported. -/
theorem mfmCheck_binToMfm (nr : Nat) :
    mfmCheck (binToMfm m p (nr + 2)) (p + 2) (nr + 1) =
      if mfmWord ((m p).getLsbD 0) (m (p + 1)) ≠ mfmWord ((m p).getLsbD 4) (m (p + 1))
      then [0] else [] := by
  have hwords := binToMfm_words m p (nr + 2)
  rw [Mem.words_succ, Mem.words_succ, Mem.bytes_succ, Mem.bytes_succ, mfmWords,
    mfmWords] at hwords
  obtain ⟨hword₀, hwords⟩ := List.cons.inj hwords
  obtain ⟨hword₁, hrest⟩ := List.cons.inj hwords
  -- bit 8 of the first word is bit 4 of its byte
  have hbit : ((binToMfm m p (nr + 2)).ld16 p).getLsbD 0 = (m p).getLsbD 4 := by
    rw [Mem.ld16_lsb, hword₀, show (7 : Nat) = 2 * 3 + 1 from rfl,
      mfmWord_data _ _ (by decide), BitVec.getMsbD_eq_getLsbD]
    rfl
  have htail : mfmCheckLoop (binToMfm m p (nr + 2)) (p + 2) nr (0 + 1)
      (mfmWord ((m p).getLsbD 0) (m (p + 1))) = [] := by
    refine mfmCheckLoop_eq_nil _ _ nr _ _ (m.bytes (p + 1 + 1) nr) ?_
    rw [mfmWord_lsb]
    exact hrest
  rw [mfmCheck, Nat.add_sub_cancel, mfmCheckLoop, Nat.mul_zero, Nat.add_zero, hword₁,
    mfmtobin_mfmWord, mfmCode_eq, hbit, htail, List.append_nil]

end Check

/-- **`mfm_check` is exact from word 1 on**, and for word 0 if and only if the bit it
takes for the last one of the word in front, bit 8, tells the same as bit 0.  After
`bin_to_mfm` it therefore reports nothing if and only if that holds of the first two
bytes. -/
theorem mfm_check_exact (m : Mem) (p nr : Nat) :
    ((∀ i, i < nr → (i ∈ mfmCheck m (p + 2) nr ↔ m.word (p + 2 + 2 * i) ≠
        mfmWord ((m.word (p + 2 * i)).getLsbD 0) (mfmtobin (m.word (p + 2 + 2 * i))))) ↔
      nr = 0 ∨ (m.word p).getLsbD 8 = (m.word p).getLsbD 0 ∨
        (m.word (p + 2)).getMsbD 1 = true ∨ ¬ IsCode (m.word (p + 2))) ∧
    (mfmCheck (binToMfm m p (nr + 2)) (p + 2) (nr + 1) = [] ↔
      (m p).getLsbD 4 = (m p).getLsbD 0 ∨ (m (p + 1)).getMsbD 0 = true) := by
  refine ⟨?_, ?_⟩
  · constructor
    · intro hall
      rcases Nat.eq_zero_or_pos nr with hzero | hpos
      · exact .inl hzero
      · have hiff := (mem_mfmCheck_zero m p hpos).symm.trans (hall 0 hpos)
        exact .inr (code_congr_iff.mp hiff)
    · rintro (hzero | hcond) i hi
      · omega
      · by_cases hne : i = 0
        · subst hne
          exact (mem_mfmCheck_zero m p hi).trans (code_congr_iff.mpr hcond)
        · exact mem_mfmCheck_of_ne_zero m p hi hne
  · rw [mfmCheck_binToMfm, eq_comm (a := (m p).getLsbD 4), ← mfmWord_congr_iff]
    constructor
    · intro h
      by_contra hne
      rw [if_pos hne] at h
      cases h
    · intro h
      exact if_neg (not_not_intro h)

/-- A buffer that holds 0x01, 0x00: the word for 0x00 is right behind a set bit, and is
reported. -/
theorem mfm_check_first_word :
    mfmCheck (binToMfm (Mem.stBytes (fun _ => 0) 1 [0x01, 0x00]) 1 2) 3 1 = [0] ∧
      (binToMfm (Mem.stBytes (fun _ => 0) 1 [0x01, 0x00]) 1 2).word 3 =
        mfmWord (((binToMfm (Mem.stBytes (fun _ => 0) 1 [0x01, 0x00]) 1 2).word 1).getLsbD 0)
          (mfmtobin ((binToMfm (Mem.stBytes (fun _ => 0) 1 [0x01, 0x00]) 1 2).word 3)) := by
  decide

end FlashFloppyTestbed
