/-
  Disk/FmSector.lean --- FM data fields: the writer's, and those the reader accepts.

  The test for a mark looks at sixteen bitcells of gap and at the clock bits of the
  mark.  In the writer's bitcells it passes once, behind the last clock bit of its
  mark (`fmSectorWords_shows_iff`): anywhere else a clock bit would have to be missing.
  What the test does not look at, the reader checks: the data bits of the mark, then
  every word (`ibmFmCheckDam_accepts`).
-/
import FlashFloppyTestbed.Coder
import FlashFloppyTestbed.Disk.IbmFm
import FlashFloppyTestbed.Disk.Layout

set_option autoImplicit false

namespace FlashFloppyTestbed

open FlashFloppyTestbed.Foundation FlashFloppyTestbed.Floppy

/-! ## The test for a mark -/

/-- The bitcells that the test looks at. -/
def fmMask : BitVec 32 := 0xffffd555

/-- What they have to be. -/
def fmPattern : BitVec 32 := 0x55555015

theorem and_eq_iff_getMsbD {w : Nat} (x m v : BitVec w) :
    x &&& m = v ↔ ∀ i, i < w → (x.getMsbD i && m.getMsbD i) = v.getMsbD i := by
  refine ⟨fun h i _ => ?_, fun h => BitVec.eq_of_getMsbD_eq fun i hi => ?_⟩
  · rw [← h, BitVec.getMsbD_and]
  · rw [BitVec.getMsbD_and]
    exact h i hi

theorem found_fm (x : BitVec 32) : Sync.fm.found x = if x &&& fmMask = fmPattern then 31 else 0 :=
  if_pos rfl

/-- The test, bitcell by bitcell. -/
theorem fm_shows_iff {l : List Bool} (hl : l.length = 32) :
    Sync.fm.Shows l ↔
      ∀ i, i < 32 → fmMask.getMsbD i = true → l[i]? = some (fmPattern.getMsbD i) := by
  have hbits : bitsOf (pushBits (~~~0 : BitVec 32) l) = l := by
    rw [bitsOf_pushBits _ _ (Nat.le_of_eq hl.symm), hl]
    rfl
  have hget : ∀ i, i < 32 → l[i]? = some ((pushBits (~~~0 : BitVec 32) l).getMsbD i) := by
    intro i hi
    conv => lhs; rw [← hbits]
    rw [List.getElem?_eq_getElem (by rw [length_bitsOf]; exact hi), getElem_bitsOf]
  have hclear : ∀ i : Fin 32, fmMask.getMsbD i = false → fmPattern.getMsbD i = false := by decide
  have htest : Sync.fm.Shows l ↔ pushBits (~~~0 : BitVec 32) l &&& fmMask = fmPattern := by
    rw [Sync.Shows, found_fm]
    by_cases h : pushBits (~~~0 : BitVec 32) l &&& fmMask = fmPattern
    · rw [if_pos h]
      exact ⟨fun _ => h, fun _ => by decide⟩
    · rw [if_neg h]
      exact ⟨fun hne => absurd rfl hne, fun heq => absurd heq h⟩
  rw [htest, and_eq_iff_getMsbD]
  refine ⟨fun h i hi hmask => ?_, fun h i hi => ?_⟩
  · rw [hget i hi, ← h i hi, hmask, Bool.and_true]
  · cases hmask : fmMask.getMsbD i with
    | true =>
      have hi' := h i hi hmask
      rw [hget i hi] at hi'
      rw [Bool.and_true, Option.some.inj hi']
    | false => rw [Bool.and_false, hclear ⟨i, hi⟩ hmask]

/-! ## The mark -/

/-- The data address mark: 0xfb without three of its clock bits. -/
def fmMark : BitVec 16 := fmSync 0xfb fmSyncClk

theorem fmMark_getMsbD : ∀ k : Fin 8, fmMark.getMsbD (2 * k) = fmSyncClk.getMsbD k ∧
    fmMark.getMsbD (2 * k + 1) = (0xfb : Byte).getMsbD k := by
  decide

theorem mfmtobin_fmMark : mfmtobin fmMark = 0xfb := by decide

/-- The mark has the clock bits of `FM_SYNC_CLK` and decodes to 0xfb. -/
theorem eq_fmMark {w : BitVec 16} (hclock : ∀ k, k < 8 → w.getMsbD (2 * k) = fmSyncClk.getMsbD k)
    (hdata : mfmtobin w = 0xfb) : w = fmMark := by
  apply BitVec.eq_of_getMsbD_eq
  intro i hi
  rcases Nat.mod_two_eq_zero_or_one i with heven | hodd
  · obtain ⟨k, rfl⟩ : ∃ k, i = 2 * k := ⟨i / 2, by omega⟩
    rw [hclock k (by omega)]
    exact (fmMark_getMsbD ⟨k, by omega⟩).1.symm
  · obtain ⟨k, rfl⟩ : ∃ k, i = 2 * k + 1 := ⟨i / 2, by omega⟩
    rw [← mfmtobin_getMsbD w (by omega), hdata]
    exact (fmMark_getMsbD ⟨k, by omega⟩).2.symm

/-! ## The writer's words -/

/-- The record of a data field, from its mark through its CRC. -/
def fmRecord (data : List Byte) : List Byte :=
  0xfb :: data ++ crcBytes (crc16Ccitt (0xfb :: data) 0xffff)

/-- Its words. -/
def fmRecordWords (data : List Byte) : List (BitVec 16) :=
  fmMark :: ((fmRecord data).drop 1).map fmCode

/-- The words of a data field with its gaps. -/
def fmSectorWords (data : List Byte) (gap3 : Nat) : List (BitVec 16) :=
  List.replicate fmGapSync (fmCode 0x00) ++ fmRecordWords data ++ List.replicate gap3 (fmCode 0xff)

@[simp] theorem length_fmRecord (data : List Byte) : (fmRecord data).length = data.length + 3 := by
  rw [fmRecord, List.length_append, List.length_cons, length_crcBytes]

@[simp] theorem length_fmRecordWords (data : List Byte) :
    (fmRecordWords data).length = data.length + 3 := by
  rw [fmRecordWords, List.length_cons, List.length_map, List.length_drop, length_fmRecord]
  omega

@[simp] theorem length_fmSectorWords (data : List Byte) (gap3 : Nat) :
    (fmSectorWords data gap3).length = data.length + gap3 + 9 := by
  rw [fmSectorWords, List.length_append, List.length_append, List.length_replicate,
    length_fmRecordWords, List.length_replicate, fmGapSync]
  omega

theorem map_mfmtobin_fmRecordWords (data : List Byte) :
    (fmRecordWords data).map mfmtobin = fmRecord data := by
  rw [fmRecordWords, List.map_cons, mfmtobin_fmMark, map_mfmtobin_fmCode]
  rfl

theorem Out.Holds.fmDam {p : Nat} {l : List Byte} {o : Out} (h : o.Holds p l) (data : List Byte)
    (gap3 : Nat) :
    (o.fmDam data gap3).Holds p (l ++ (List.replicate fmGapSync 0x00 ++ fmRecord data ++
      List.replicate gap3 0xff)) := by
  have hgap := h.memset 0x00 fmGapSync
  have hmark := (hgap.put 0xfb).memcpy data
  rw [List.append_assoc (l ++ _)] at hmark
  have hall := (hmark.putCrc hgap.q_eq).memset 0xff gap3
  rw [fmRecord]
  simp only [List.append_assoc, List.cons_append, List.nil_append] at hall ⊢
  exact hall

/-- **`ibm_fm_write_sector`** hands the words of a data field to the write path, and its
`fm_check` reports nothing. -/
theorem ibmFmSectorBuffer_spec (m : Mem) (p : Nat) {buf : List Byte} {idam : Idam} (gap3 : Nat)
    (hbuf : buf.length = idam.size) :
    (ibmFmSectorBuffer m p buf idam gap3).reported = [] ∧
    (ibmFmSectorBuffer m p buf idam gap3).wr.bits (ibmFmSectorBuffer m p buf idam gap3).mem =
      (fmSectorWords buf (gap3 + (gap3 + 1) % 2)).flatMap bitsOf := by
  have hsize := idam.size_eq
  have hpad : (if (fmGapSync + 1 + idam.size + 2 + gap3) % 2 = 1 then 1 else 0) =
      (gap3 + 1) % 2 := by
    unfold fmGapSync
    split <;> omega
  have hholds := (Out.Holds.nil m p).fmDam buf (gap3 + (gap3 + 1) % 2)
  obtain ⟨n, hn⟩ : ∃ n, n = fmGapSync + 1 + idam.size + 2 + gap3 + (gap3 + 1) % 2 := ⟨_, rfl⟩
  have hlen : ([] ++ (List.replicate fmGapSync 0x00 ++ fmRecord buf ++
      List.replicate (gap3 + (gap3 + 1) % 2) 0xff)).length = n := by
    rw [List.nil_append, List.length_append, List.length_append, List.length_replicate,
      length_fmRecord, List.length_replicate, hn, hbuf]
    omega
  have hbytes := hholds.bytes_eq
  rw [hlen, List.nil_append] at hbytes
  obtain ⟨m₁, hm₁⟩ : ∃ m₁, m₁ = binToFm
    ((Out.mk m p).fmDam buf (gap3 + (gap3 + 1) % 2)).mem p n := ⟨_, rfl⟩
  have hwords : m₁.words p n = (List.replicate fmGapSync 0x00 ++ fmRecord buf ++
      List.replicate (gap3 + (gap3 + 1) % 2) 0xff).map fmCode := by
    rw [hm₁, binToFm_words, hbytes]
  rw [ibmFmSectorBuffer]
  simp only [hpad, ← hn, ← hm₁]
  refine ⟨?_, ?_⟩
  · rw [fmCheck_eq_nil_iff, hwords, List.map_map, List.map_map]
    exact (List.map_congr_left fun x _ => congrArg fmCode (mfmtobin_fmCode x)).symm
  · show (m₁.st16 (p + 2 * fmGapSync) (htobe16 fmMark)).bits p (2 * n) = _
    rw [← Mem.words_flatMap_bitsOf, Mem.words_st16_htobe16, hwords, fmSectorWords, fmRecordWords,
      fmRecord]
    simp only [List.map_append, List.map_cons, List.map_replicate, List.cons_append,
      List.append_assoc, List.drop_succ_cons, List.drop_zero]
    rw [List.set_append_right _ _ (by rw [List.length_replicate]), List.length_replicate,
      Nat.sub_self, List.set_cons_zero]

/-! ## Where the writer's bitcells show a mark -/

/-- One word is the mark, and all others are code words. -/
theorem fmSectorWords_eq (data : List Byte) (gap3 : Nat) :
    fmSectorWords data gap3 = (List.replicate fmGapSync 0x00).map fmCode ++
      fmMark :: ((fmRecord data).drop 1 ++ List.replicate gap3 0xff).map fmCode := by
  rw [fmSectorWords, fmRecordWords, List.map_append, List.map_replicate, List.map_replicate,
    List.append_assoc, List.cons_append]

theorem getElem?_fmSectorWords {data : List Byte} {gap3 q : Nat} {w : BitVec 16}
    (h : (fmSectorWords data gap3)[q]? = some w) :
    q = fmGapSync ∧ w = fmMark ∨ ∃ x, w = fmCode x := by
  rw [fmSectorWords_eq] at h
  have hlen : ((List.replicate fmGapSync (0x00 : Byte)).map fmCode).length = fmGapSync := by
    rw [List.length_map, List.length_replicate]
  rcases Nat.lt_trichotomy q fmGapSync with hlt | rfl | hgt
  · rw [List.getElem?_append_left (by omega), List.getElem?_map, Option.map_eq_some_iff] at h
    obtain ⟨x, -, rfl⟩ := h
    exact .inr ⟨x, rfl⟩
  · rw [List.getElem?_append_right (by omega), hlen, Nat.sub_self] at h
    exact .inl ⟨rfl, (Option.some.inj h).symm⟩
  · obtain ⟨k, hk⟩ : ∃ k, q - fmGapSync = k + 1 := ⟨q - fmGapSync - 1, by omega⟩
    rw [List.getElem?_append_right (by omega), hlen, hk, List.getElem?_cons_succ, List.getElem?_map,
      Option.map_eq_some_iff] at h
    obtain ⟨x, -, rfl⟩ := h
    exact .inr ⟨x, rfl⟩

/-- Clock bits are missing in three places only. -/
theorem fm_missing_clock {data : List Byte} {gap3 r : Nat} (heven : r % 2 = 0)
    (h : ((fmSectorWords data gap3).flatMap bitsOf)[r]? = some false) :
    r = 100 ∨ r = 102 ∨ r = 104 := by
  have hlt : r < ((fmSectorWords data gap3).flatMap bitsOf).length :=
    (List.getElem?_eq_some_iff.mp h).1
  rw [length_flatMap_bitsOf] at hlt
  have hq : r / 16 < (fmSectorWords data gap3).length := by omega
  rw [getElem?_flatMap_bitsOf _ _ hq] at h
  obtain ⟨k, hk, hr⟩ : ∃ k, k < 8 ∧ r % 16 = 2 * k := ⟨r % 16 / 2, by omega, by omega⟩
  have hclear := Option.some.inj h
  rw [hr] at hclear
  rcases getElem?_fmSectorWords (List.getElem?_eq_getElem hq) with ⟨hgap, hmark⟩ | ⟨x, hx⟩
  · rw [hmark, (fmMark_getMsbD ⟨k, hk⟩).1] at hclear
    have hzero : ∀ k : Fin 8, fmSyncClk.getMsbD k = false → k.val = 2 ∨ k.val = 3 ∨ k.val = 4 := by
      decide
    have hk' := hzero ⟨k, hk⟩ hclear
    unfold fmGapSync at hgap
    simp only at hk'
    omega
  · rw [hx, fmCode_clock x hk] at hclear
    cases hclear

/-- **The mark is seen once** in the writer's bitcells: behind its last clock bit. -/
theorem fmSectorWords_shows_iff (data : List Byte) (gap3 : Nat) {k : Nat}
    (hk : k ≤ ((fmSectorWords data gap3).flatMap bitsOf).length) :
    Sync.fm.Shows (((fmSectorWords data gap3).flatMap bitsOf).take k) ↔ k = 111 := by
  obtain ⟨l, hl⟩ : ∃ l, l = (fmSectorWords data gap3).flatMap bitsOf := ⟨_, rfl⟩
  rw [← hl] at hk ⊢
  constructor
  · intro hshows
    have hlong := hshows.le_length
    rw [List.length_take] at hlong
    obtain ⟨b, rfl⟩ : ∃ b, k = b + 32 := ⟨k - 32, by omega⟩
    have hlen : ((l.drop b).take 32).length = 32 := by
      rw [List.length_take, List.length_drop]
      omega
    rw [List.take_add, Sync.shows_append _ (Nat.le_of_eq hlen.symm), fm_shows_iff hlen] at hshows
    have hclear : ∀ i : Fin 32, fmMask.getMsbD i = true → fmPattern.getMsbD i = false →
        (b + i) % 2 = 0 → b + i = 100 ∨ b + i = 102 ∨ b + i = 104 := by
      intro i hmask hzero heven
      have hbit := hshows i i.isLt hmask
      rw [List.getElem?_take_of_lt i.isLt, List.getElem?_drop, hzero, hl] at hbit
      exact fm_missing_clock heven hbit
    rcases Nat.mod_two_eq_zero_or_one b with heven | hodd
    · -- in this phase clock bits would be missing seven cells apart
      have h₀ : b + 0 = 100 ∨ b + 0 = 102 ∨ b + 0 = 104 :=
        hclear 0 (by decide) (by decide) heven
      have h₆ : b + 6 = 100 ∨ b + 6 = 102 ∨ b + 6 = 104 :=
        hclear 6 (by decide) (by decide) (show (b + 6) % 2 = 0 by omega)
      omega
    · have h₂₁ : b + 21 = 100 ∨ b + 21 = 102 ∨ b + 21 = 104 :=
        hclear 21 (by decide) (by decide) (show (b + 21) % 2 = 0 by omega)
      have h₂₅ : b + 25 = 100 ∨ b + 25 = 102 ∨ b + 25 = 104 :=
        hclear 25 (by decide) (by decide) (show (b + 25) % 2 = 0 by omega)
      omega
  · rintro rfl
    have hsplit : l = (List.replicate fmGapSync (fmCode 0x00) ++ [fmMark]).flatMap bitsOf ++
        (((fmRecord data).drop 1 ++ List.replicate gap3 0xff).map fmCode).flatMap bitsOf := by
      rw [hl, fmSectorWords_eq, ← List.flatMap_append, List.append_assoc, List.map_replicate]
      rfl
    rw [hsplit, List.take_append_of_le_length (by decide)]
    decide +kernel

end FlashFloppyTestbed
