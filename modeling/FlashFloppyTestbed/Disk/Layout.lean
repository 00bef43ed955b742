/-
  Disk/Layout.lean --- what the generators of `src/ibm.c` lay out: a track as a
  list of items, sector by sector.

  `trackItems gap3 secs` is the track with the given sectors, `Formatted` a
  revolution that holds it, followed by filler up to the index.  The buffers that
  `ibm_mfm_write_track` and `ibm_mfm_write_sector` hand to the write path hold the
  words of such items (`ibmMfmWriteTrack_spec`, `ibmMfmSectorBuffer_spec`).
-/
import FlashFloppyTestbed.Disk.Ibm

set_option autoImplicit false

namespace FlashFloppyTestbed

open FlashFloppyTestbed.Foundation FlashFloppyTestbed.Floppy

/-! ## The items of a track -/

/-- A sector: its header and its data. -/
structure Sector where
  idam : Idam
  data : List Byte
  deriving DecidableEq

/-- The record of a header, from its mark through its CRC. -/
def idamRecord (i : Idam) : List Byte :=
  mfmIdamMark ++ i.bytes ++ crcBytes (crc16Ccitt (mfmIdamMark ++ i.bytes) 0xffff)

/-- The record of a data field, from its mark through its CRC. -/
def damRecord (data : List Byte) : List Byte :=
  mfmIdamMark.take 3 ++ 0xfb :: data ++
    crcBytes (crc16Ccitt (mfmIdamMark.take 3 ++ 0xfb :: data) 0xffff)

/-- A record: three sync words, then code words. -/
def recordItems (l : List Byte) : List Item := syncItems ++ codedItems (l.drop 3)

/-- A header with its gaps. -/
def idamItems (i : Idam) : List Item :=
  seamItems (List.replicate mfmGapSync 0x00) ++ recordItems (idamRecord i) ++
    codedItems (List.replicate mfmGap2 0x4e)

/-- A data field with its gaps. -/
def damItems (data : List Byte) (gap3 : Nat) : List Item :=
  seamItems (List.replicate mfmGapSync 0x00) ++ recordItems (damRecord data) ++
    seamItems (List.replicate gap3 0x4e)

/-- A sector with its gaps. -/
def sectorItems (gap3 : Nat) (s : Sector) : List Item := idamItems s.idam ++ damItems s.data gap3

/-- A track: post-index gap, sectors, pre-index gap. -/
def trackItems (gap3 : Nat) (secs : List Sector) : List Item :=
  seamItems (List.replicate 64 0x4e) ++ secs.flatMap (sectorItems gap3) ++
    seamItems (List.replicate 64 0x4e)

@[simp] theorem length_crcBytes (crc : BitVec 16) : (crcBytes crc).length = 2 := rfl

@[simp] theorem length_idamRecord (i : Idam) : (idamRecord i).length = 10 := rfl

@[simp] theorem length_damRecord (data : List Byte) :
    (damRecord data).length = data.length + 6 := by
  rw [damRecord, List.length_append, List.length_append, List.length_cons, length_crcBytes]
  show 3 + (data.length + 1) + 2 = data.length + 6
  omega

theorem length_recordItems {l : List Byte} (h : 3 ≤ l.length) :
    (recordItems l).length = l.length := by
  rw [recordItems, List.length_append, length_codedItems, List.length_drop, syncItems,
    List.length_replicate]
  omega

theorem itemBytes_recordItems {l : List Byte} (h : l.take 3 = mfmIdamMark.take 3) :
    itemBytes (recordItems l) = l := by
  rw [recordItems, itemBytes_append, itemBytes_codedItems]
  conv => rhs; rw [← List.take_append_drop 3 l, h]
  rfl

/-- The words of a record: the sync words, and code words behind them. -/
theorem words_recordItems {y : Bool} {l : List Byte} {ws : List (BitVec 16)}
    (h : Coded y (recordItems l) ws) :
    ws = List.replicate 3 syncWord ++ mfmWords true (l.drop 3) := by
  rw [recordItems] at h
  obtain ⟨wsync, wdata, rfl, hsync, hdata⟩ := h.split
  rw [coded_codedItems_iff.mp hdata]
  obtain _ | ⟨hw₀, hsync⟩ := hsync
  obtain _ | ⟨hw₁, hsync⟩ := hsync
  obtain _ | ⟨hw₂, hsync⟩ := hsync
  cases hsync
  rw [hw₀.2, hw₁.2, hw₂.2]
  rfl

theorem itemBytes_idamItems (i : Idam) :
    itemBytes (idamItems i) = List.replicate mfmGapSync 0x00 ++ idamRecord i ++
      List.replicate mfmGap2 0x4e := by
  rw [idamItems, itemBytes_append, itemBytes_append, itemBytes_seamItems, itemBytes_codedItems,
    itemBytes_recordItems (l := idamRecord i) rfl]

theorem itemBytes_damItems (data : List Byte) (gap3 : Nat) :
    itemBytes (damItems data gap3) = List.replicate mfmGapSync 0x00 ++ damRecord data ++
      List.replicate gap3 0x4e := by
  rw [damItems, itemBytes_append, itemBytes_append, itemBytes_seamItems, itemBytes_seamItems,
    itemBytes_recordItems (l := damRecord data) rfl]

@[simp] theorem length_idamItems (i : Idam) : (idamItems i).length = 44 := rfl

@[simp] theorem length_damItems (data : List Byte) (gap3 : Nat) :
    (damItems data gap3).length = data.length + gap3 + 18 := by
  rw [damItems, List.length_append, List.length_append, length_recordItems (by simp),
    length_damRecord, length_seamItems, length_seamItems, List.length_replicate,
    List.length_replicate, mfmGapSync]
  omega

@[simp] theorem length_sectorItems (gap3 : Nat) (s : Sector) :
    (sectorItems gap3 s).length = s.data.length + gap3 + 62 := by
  rw [sectorItems, List.length_append, length_idamItems, length_damItems]
  omega

/-! ## Laying out bytes -/

namespace Out

/-- The bytes stored so far. -/
structure Holds (p : Nat) (l : List Byte) (o : Out) : Prop where
  q_eq : o.q = p + l.length
  bytes_eq : o.mem.bytes p l.length = l

namespace Holds

variable {p s n : Nat} {l l' : List Byte} {o : Out} {v : Byte}

theorem nil (m : Mem) (p : Nat) : Holds p [] ⟨m, p⟩ := ⟨rfl, rfl⟩

theorem memcpy (h : Holds p l o) (l' : List Byte) : Holds p (l ++ l') (o.memcpy l') where
  q_eq := by
    rw [Out.memcpy, h.q_eq, List.length_append, Nat.add_assoc]
  bytes_eq := by
    rw [Out.memcpy, h.q_eq, List.length_append, Mem.bytes_stBytes_append, h.bytes_eq]

theorem memset (h : Holds p l o) (v : Byte) (n : Nat) :
    Holds p (l ++ List.replicate n v) (o.memset v n) := by
  have hcopy := h.memcpy (List.replicate n v)
  rw [Out.memcpy, List.length_replicate] at hcopy
  exact hcopy

theorem put (h : Holds p l o) (v : Byte) : Holds p (l ++ [v]) (o.put v) := by
  have hstore : o.mem.st8 o.q v = o.mem.stBytes o.q [v] := by
    funext i
    rw [Mem.st8, Mem.stBytes, List.length_singleton]
    by_cases hi : i = o.q
    · subst hi
      rw [if_pos rfl, if_pos (by omega), Nat.sub_self]
      rfl
    · rw [if_neg hi, if_neg (by omega)]
  have hcopy := h.memcpy [v]
  rw [Out.memcpy, ← hstore] at hcopy
  exact hcopy

/-- The CRC is computed from the bytes stored since `s`. -/
theorem putCrc (h : Holds p (l ++ l') o) (hs : s = p + l.length) :
    Holds p (l ++ l' ++ crcBytes (crc16Ccitt l' 0xffff)) (o.putCrc s) := by
  have hrecord : o.mem.bytes s (o.q - s) = l' := by
    have hq := h.q_eq
    have hbytes := h.bytes_eq
    rw [List.length_append] at hq hbytes
    rw [show o.q - s = l'.length by omega, hs]
    rw [Mem.bytes_add] at hbytes
    exact (List.append_inj hbytes (Mem.length_bytes _ _ _)).2
  have hput := (h.put ((crc16Ccitt l' 0xffff >>> 8).setWidth 8)).put
    ((crc16Ccitt l' 0xffff).setWidth 8)
  rw [List.append_assoc (l ++ l')] at hput
  rw [Out.putCrc, hrecord]
  exact hput

theorem idam (h : Holds p l o) (i : Idam) : Holds p (l ++ itemBytes (idamItems i)) (o.idam i) := by
  have hgap := h.memset 0x00 mfmGapSync
  have hmark := (hgap.memcpy (mfmIdamMark.take 4)).memcpy i.bytes
  rw [List.append_assoc (l ++ _)] at hmark
  have hall := (hmark.putCrc hgap.q_eq).memset 0x4e mfmGap2
  rw [itemBytes_idamItems, idamRecord]
  simp only [List.append_assoc] at hall ⊢
  exact hall

theorem dam (h : Holds p l o) (data : List Byte) (gap3 : Nat) :
    Holds p (l ++ itemBytes (damItems data gap3)) (o.dam data gap3) := by
  have hgap := h.memset 0x00 mfmGapSync
  have hmark := ((hgap.memcpy (mfmIdamMark.take 3)).put 0xfb).memcpy data
  rw [List.append_assoc (l ++ _), List.append_assoc (l ++ _)] at hmark
  have hall := (hmark.putCrc hgap.q_eq).memset 0x4e gap3
  rw [itemBytes_damItems, damRecord]
  simp only [List.append_assoc, List.cons_append, List.nil_append] at hall ⊢
  exact hall

end Holds

end Out

/-! ## The marks of a track -/

/-- Where the marks of consecutive sectors are, the first sector being at `st`. -/
def markOffs (gap3 : Nat) : Nat → List Sector → List Nat
  | _, [] => []
  | st, s :: secs => (st + 12) :: (st + 56) :: markOffs gap3 (st + (sectorItems gap3 s).length) secs

theorem map_markOffs (gap3 n : Nat) (secs : List Sector) : ∀ st,
    (markOffs gap3 st secs).map (n + ·) = markOffs gap3 (n + st) secs := by
  induction secs with
  | nil => exact fun _ => rfl
  | cons s secs ih =>
    intro st
    rw [markOffs, markOffs, List.map_cons, List.map_cons, ih]
    simp only [Nat.add_assoc]

theorem length_markOffs (gap3 : Nat) (secs : List Sector) : ∀ st,
    (markOffs gap3 st secs).length = 2 * secs.length := by
  induction secs with
  | nil => exact fun _ => rfl
  | cons s secs ih =>
    intro st
    rw [markOffs, List.length_cons, List.length_cons, ih, List.length_cons]
    omega

theorem MarksAt.recordItems (l : List Byte) : MarksAt (recordItems l) [0] :=
  MarksAt.syncItems.append (MarksAt.codedItems (l.drop 3))

theorem MarksAt.idamItems (i : Idam) : MarksAt (idamItems i) [12] :=
  ((MarksAt.seamItems (List.replicate mfmGapSync 0x00)).append
    (MarksAt.recordItems (idamRecord i))).append (MarksAt.codedItems (List.replicate mfmGap2 0x4e))

theorem MarksAt.damItems (data : List Byte) (gap3 : Nat) : MarksAt (damItems data gap3) [12] :=
  ((MarksAt.seamItems (List.replicate mfmGapSync 0x00)).append
    (MarksAt.recordItems (damRecord data))).append (MarksAt.seamItems (List.replicate gap3 0x4e))

theorem MarksAt.sectors (gap3 : Nat) (secs : List Sector) :
    MarksAt (secs.flatMap (sectorItems gap3)) (markOffs gap3 0 secs) := by
  induction secs with
  | nil => exact .nil fun _ hit => absurd hit List.not_mem_nil
  | cons s secs ih =>
    have hsector := (MarksAt.idamItems s.idam).append (MarksAt.damItems s.data gap3)
    have hall := hsector.append ih
    rw [map_markOffs, Nat.add_zero] at hall
    rw [List.flatMap_cons, markOffs, Nat.zero_add, Nat.zero_add, Nat.zero_add]
    exact hall

/-- The marks of a track are those of its sectors. -/
theorem MarksAt.trackItems (gap3 : Nat) (secs : List Sector) :
    MarksAt (trackItems gap3 secs) (markOffs gap3 64 secs) := by
  have hall := ((MarksAt.seamItems (List.replicate 64 0x4e)).append
    (MarksAt.sectors gap3 secs)).append (MarksAt.seamItems (List.replicate 64 0x4e))
  rw [length_seamItems, List.length_replicate, map_markOffs, List.nil_append, List.map_nil,
    List.append_nil] at hall
  exact hall

/-! ## The generators -/

/-- The sectors `ibm_mfm_write_track` lays out. -/
def freshSectors (idams : List Idam) : List Sector :=
  idams.map fun i => ⟨i, List.replicate i.size 0xe2⟩

theorem foldl_trackSector {p : Nat} (gap3 : Nat) : ∀ (idams : List Idam) (l : List Byte) (o : Out)
    (offs : List Nat), o.Holds p l →
    ∃ o', idams.foldl (trackSector p gap3) (o, offs) =
        (o', offs ++ markOffs gap3 l.length (freshSectors idams)) ∧
      o'.Holds p (l ++ itemBytes ((freshSectors idams).flatMap (sectorItems gap3)))
  | [], l, o, offs, h => ⟨o, by rw [freshSectors, List.map_nil, markOffs, List.append_nil]; rfl, by
      rw [freshSectors, List.map_nil, List.flatMap_nil, itemBytes, List.map_nil, List.append_nil]
      exact h⟩
  | i :: idams, l, o, offs, h => by
    have hidam := h.idam i
    have hdam := hidam.dam (List.replicate i.size 0xe2) gap3
    rw [List.append_assoc, ← itemBytes_append] at hdam
    have hq₁ : o.q + mfmGapSync - p = l.length + 12 := by
      rw [h.q_eq, mfmGapSync]
      omega
    have hq₂ : (o.idam i).q + mfmGapSync - p = l.length + 56 := by
      rw [hidam.q_eq, List.length_append, length_itemBytes, length_idamItems, mfmGapSync]
      omega
    obtain ⟨o', hfold, hholds⟩ := foldl_trackSector gap3 idams _ _
      (offs ++ [l.length + 12, l.length + 56]) hdam
    refine ⟨o', ?_, ?_⟩
    · rw [List.foldl_cons, trackSector]
      simp only [hq₁, hq₂]
      rw [hfold, List.length_append, length_itemBytes]
      simp only [freshSectors, List.map_cons, markOffs, List.append_assoc, List.cons_append,
        List.nil_append]
      rfl
    · rw [freshSectors, List.map_cons, List.flatMap_cons, itemBytes_append, ← List.append_assoc]
      exact hholds

theorem word_patchSync (p : Nat) (m : Mem) (off i : Nat) :
    (patchSync p m off).word (p + 2 * i) =
      if off ≤ i ∧ i < off + 3 then syncWord else m.word (p + 2 * i) := by
  have hstore : ∀ (m : Mem) (k : Nat), (m.st16 (p + 2 * k) (htobe16 syncWord)).word (p + 2 * i) =
      if i = k then syncWord else m.word (p + 2 * i) := by
    intro m k
    by_cases hik : i = k
    · rw [if_pos hik, hik, Mem.word_st16_htobe16]
    · rw [if_neg hik, Mem.word_st16_of_ne m _ (by omega)]
  rw [patchSync, hstore, hstore, hstore]
  by_cases hin : off ≤ i ∧ i < off + 3
  · rw [if_pos hin]
    split
    · rfl
    · split
      · rfl
      · rw [if_pos (by omega)]
  · rw [if_neg hin, if_neg (by omega), if_neg (by omega), if_neg (by omega)]

theorem word_foldl_patchSync (p i : Nat) : ∀ (offs : List Nat) (m : Mem),
    (offs.foldl (patchSync p) m).word (p + 2 * i) =
      if ∃ off ∈ offs, off ≤ i ∧ i < off + 3 then syncWord else m.word (p + 2 * i) := by
  intro offs
  induction offs with
  | nil => intro m; rw [if_neg (by simp)]; rfl
  | cons off offs ih =>
    intro m
    rw [List.foldl_cons, ih, word_patchSync]
    by_cases hrest : ∃ off ∈ offs, off ≤ i ∧ i < off + 3
    · obtain ⟨off', hoff', hin⟩ := hrest
      rw [if_pos ⟨off', hoff', hin⟩, if_pos ⟨off', List.mem_cons_of_mem off hoff', hin⟩]
    · rw [if_neg hrest]
      by_cases hin : off ≤ i ∧ i < off + 3
      · rw [if_pos hin, if_pos ⟨off, List.mem_cons_self, hin⟩]
      · rw [if_neg hin, if_neg]
        rintro ⟨off', hoff', hin'⟩
        rcases List.mem_cons.mp hoff' with rfl | hoff'
        · exact hin hin'
        · exact hrest ⟨off', hoff', hin'⟩

/-- **A finished buffer** holds the words of the items it was laid out for. -/
theorem finishMfm_words {m : Mem} {p : Nat} {l : List Item} {offs : List Nat}
    (terminateAtIndex : BitVec 32) (hbytes : m.bytes p l.length = itemBytes l)
    (hmarks : MarksAt l offs) :
    (finishMfm m p l.length terminateAtIndex offs).mem.words p l.length =
      trackWords ((m (p - 1)).getLsbD 0) l := by
  have hwords := binToMfm_words m p l.length
  rw [hbytes] at hwords
  apply List.ext_getElem
  · simp
  · intro i h₁ h₂
    rw [Mem.length_words] at h₁
    have hword : i < ((binToMfm m p l.length).words p l.length).length := by simpa using h₁
    have hcode : i < (mfmWords ((m (p - 1)).getLsbD 0) (itemBytes l)).length := by simpa using h₁
    rw [Mem.getElem_words, finishMfm, word_foldl_patchSync, getElem_trackWords _ _ _ _ h₁ hcode]
    by_cases htag : (l[i]).tag = .sync
    · rw [if_pos htag, if_pos ((hmarks.iff i h₁).mp htag)]
    · rw [if_neg htag, if_neg fun hin => htag ((hmarks.iff i h₁).mpr hin)]
      have hget : ((binToMfm m p l.length).words p l.length)[i] =
          (binToMfm m p l.length).word (p + 2 * i) := Mem.getElem_words _ _ _ _ _
      rw [← hget]
      simp only [hwords]

/-- The bitcells of a finished buffer. -/
theorem finishMfm_bits {m : Mem} {p n : Nat} {l : List Item} {offs : List Nat}
    (terminateAtIndex : BitVec 32) (hn : n = l.length) (hbytes : m.bytes p l.length = itemBytes l)
    (hmarks : MarksAt l offs) :
    (finishMfm m p n terminateAtIndex offs).wr.bits
        (finishMfm m p n terminateAtIndex offs).mem =
      (trackWords ((m (p - 1)).getLsbD 0) l).flatMap bitsOf := by
  rw [hn, ← finishMfm_words terminateAtIndex hbytes hmarks, Mem.words_flatMap_bitsOf]
  rfl

/-- `mfm_check` reports nothing on a buffer that begins with gap bytes: it takes the
wrong bit of its first word, but the right one is the same there. -/
theorem finishMfm_reported {m : Mem} {p n : Nat} {x : Byte} {l : List Byte} {offs : List Nat}
    (terminateAtIndex : BitVec 32) (hbytes : m.bytes p (n + 1) = x :: l)
    (hx : x.getMsbD 3 = x.getLsbD 0) :
    (finishMfm m p (n + 1) terminateAtIndex offs).reported = [] := by
  have hwords := binToMfm_words m p (n + 1)
  rw [hbytes, Mem.words_succ, mfmWords] at hwords
  obtain ⟨hfirst, hrest⟩ := List.cons.inj hwords
  refine mfmCheck_eq_nil (l := l) ?_
  have hbit : ((binToMfm m p (n + 1)).ld16 p).getLsbD 0 = x.getLsbD 0 := by
    rw [← hx, ← mfmWord_data ((m (p - 1)).getLsbD 0) x (k := 3) (by decide), ← hfirst,
      Mem.ld16_lsb]
  rw [show p + 2 - 2 = p by omega, hbit, Nat.add_sub_cancel]
  exact hrest

theorem Idam.size_eq (i : Idam) : i.size = 128 * 2 ^ i.n.toNat := Nat.shiftLeft_eq _ _

theorem Idam.le_size (i : Idam) : 128 ≤ i.size := by
  rw [i.size_eq]
  exact Nat.le_mul_of_pos_right 128 (Nat.two_pow_pos _)

/-- The length `ibm_mfm_write_track` computes is that of its items, rounded up to even. -/
theorem trackBytes_eq (idams : List Idam) (gap3 : Nat) :
    trackBytes idams gap3 = (trackItems gap3 (freshSectors idams)).length +
      (trackItems gap3 (freshSectors idams)).length % 2 := by
  have hsum : ∀ idams : List Idam,
      ((freshSectors idams).flatMap (sectorItems gap3)).length =
        (idams.map fun i => mfmGapSync + 8 + 2 + mfmGap2 + (mfmGapSync + 4 + 2 + gap3) +
          i.size).sum := by
    intro idams
    induction idams with
    | nil => rfl
    | cons i idams ih =>
      rw [freshSectors, List.map_cons, List.flatMap_cons, List.length_append, ← freshSectors,
        length_sectorItems, List.length_replicate, List.map_cons, List.sum_cons, ← ih]
      unfold mfmGapSync mfmGap2
      omega
  rw [trackBytes, trackItems, List.length_append, List.length_append, length_seamItems,
    List.length_replicate, ← hsum]
  split <;> omega

/-- With an even gap there is nothing to round up. -/
theorem trackItems_even (idams : List Idam) {gap3 : Nat} (heven : gap3 % 2 = 0) :
    (trackItems gap3 (freshSectors idams)).length % 2 = 0 := by
  have hparity : ((freshSectors idams).flatMap (sectorItems gap3)).length % 2 = 0 := by
    induction idams with
    | nil => rfl
    | cons i idams ih =>
      have hsize := i.size_eq
      rw [freshSectors, List.map_cons, List.flatMap_cons, List.length_append, ← freshSectors,
        length_sectorItems, List.length_replicate]
      omega
  rw [trackItems, List.length_append, List.length_append, length_seamItems,
    List.length_replicate]
  omega

/-- **`ibm_mfm_write_track`** hands the words of a track with fresh sectors to the
write path, and of what memory holds behind it where the length is rounded up. -/
theorem ibmMfmWriteTrack_padded (m : Mem) (p : Nat) (idams : List Idam) (gap3 : Nat) :
    (ibmMfmWriteTrack m p idams gap3).syncOff = markOffs gap3 64 (freshSectors idams) ∧
    ∃ y pad, pad.length = (trackItems gap3 (freshSectors idams)).length % 2 ∧
      (ibmMfmWriteTrack m p idams gap3).wr.bits (ibmMfmWriteTrack m p idams gap3).mem =
        (trackWords y (trackItems gap3 (freshSectors idams) ++ codedItems pad)).flatMap bitsOf := by
  have hgap := (Out.Holds.nil m p).memset 0x4e 64
  obtain ⟨o, hfold, hholds⟩ := foldl_trackSector gap3 idams _ _ [] hgap
  have hall := hholds.memset 0x4e 64
  obtain ⟨l, hl⟩ : ∃ l, l = trackItems gap3 (freshSectors idams) := ⟨_, rfl⟩
  obtain ⟨pad, hpad⟩ : ∃ pad, pad = (o.memset 0x4e 64).mem.bytes (p + l.length) (l.length % 2) :=
    ⟨_, rfl⟩
  have hlen : pad.length = l.length % 2 := by rw [hpad, Mem.length_bytes]
  have hbytes : (o.memset 0x4e 64).mem.bytes p (l ++ codedItems pad).length =
      itemBytes (l ++ codedItems pad) := by
    have hitems : itemBytes l =
        [] ++ List.replicate 64 0x4e ++
          itemBytes ((freshSectors idams).flatMap (sectorItems gap3)) ++
            List.replicate 64 0x4e := by
      rw [hl, trackItems, itemBytes_append, itemBytes_append, itemBytes_seamItems, List.nil_append]
    have heq := hall.bytes_eq
    rw [← hitems, length_itemBytes] at heq
    rw [List.length_append, length_codedItems, hlen, Mem.bytes_add, heq, ← hpad,
      itemBytes_append, itemBytes_codedItems]
  have hmarks : MarksAt (l ++ codedItems pad) (markOffs gap3 64 (freshSectors idams)) := by
    have hmarks := (MarksAt.trackItems gap3 (freshSectors idams)).append (MarksAt.codedItems pad)
    rwa [List.map_nil, List.append_nil, ← hl] at hmarks
  have hwrite : ibmMfmWriteTrack m p idams gap3 =
      finishMfm (o.memset 0x4e 64).mem p (trackBytes idams gap3) 1
        (markOffs gap3 64 (freshSectors idams)) := by
    rw [ibmMfmWriteTrack]
    simp only [hfold, List.nil_append, List.length_replicate]
  rw [hwrite, ← hl]
  refine ⟨rfl, _, pad, hlen, finishMfm_bits 1 ?_ hbytes hmarks⟩
  rw [trackBytes_eq, ← hl, List.length_append, length_codedItems, hlen]

/-- With an even gap there is nothing behind it. -/
theorem ibmMfmWriteTrack_spec (m : Mem) (p : Nat) (idams : List Idam) {gap3 : Nat}
    (heven : gap3 % 2 = 0) :
    (ibmMfmWriteTrack m p idams gap3).syncOff = markOffs gap3 64 (freshSectors idams) ∧
    ∃ y, (ibmMfmWriteTrack m p idams gap3).wr.bits (ibmMfmWriteTrack m p idams gap3).mem =
      (trackWords y (trackItems gap3 (freshSectors idams))).flatMap bitsOf := by
  obtain ⟨hsync, y, pad, hlen, hbits⟩ := ibmMfmWriteTrack_padded m p idams gap3
  rw [trackItems_even idams heven] at hlen
  rw [List.length_eq_zero_iff.mp hlen, codedItems, List.map_nil, List.append_nil] at hbits
  exact ⟨hsync, y, hbits⟩

/-- **`ibm_mfm_write_sector`** hands the words of a data field to the write path, and
its `mfm_check` reports nothing. -/
theorem ibmMfmSectorBuffer_spec (m : Mem) (p : Nat) {buf : List Byte} {idam : Idam} (gap3 : Nat)
    (hbuf : buf.length = idam.size) :
    (ibmMfmSectorBuffer m p buf idam gap3).reported = [] ∧
    ∃ y, (ibmMfmSectorBuffer m p buf idam gap3).wr.bits
        (ibmMfmSectorBuffer m p buf idam gap3).mem =
      (trackWords y (damItems buf (gap3 + gap3 % 2))).flatMap bitsOf := by
  have hsize := idam.size_eq
  have hpad : (if (mfmGapSync + 4 + idam.size + 2 + gap3) % 2 = 1 then 1 else 0) = gap3 % 2 := by
    unfold mfmGapSync
    split <;> omega
  have hholds := (Out.Holds.nil m p).dam buf (gap3 + gap3 % 2)
  have hbytes := hholds.bytes_eq
  rw [List.nil_append, length_itemBytes] at hbytes
  have hlen : mfmGapSync + 4 + idam.size + 2 + gap3 + gap3 % 2 =
      (damItems buf (gap3 + gap3 % 2)).length := by
    rw [length_damItems, hbuf]
    unfold mfmGapSync
    omega
  rw [ibmMfmSectorBuffer]
  simp only [hpad]
  refine ⟨?_, _, finishMfm_bits 0 hlen hbytes (MarksAt.damItems buf _)⟩
  obtain ⟨n, hn⟩ : ∃ n, (damItems buf (gap3 + gap3 % 2)).length = n + 1 := ⟨_, rfl⟩
  rw [hlen, hn]
  rw [hn, itemBytes_damItems] at hbytes
  exact finishMfm_reported 0 hbytes rfl

end FlashFloppyTestbed
