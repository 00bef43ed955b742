/-
  Disk/Accept.lean --- which data fields `ibm_mfm_read_sector` accepts.

  Behind the header it reads a record from the next sync mark on, wherever that is
  found, and checks it (`ibmMfmCheckDam`).  The mark itself is two sync words, and
  `mfm_check` begins behind the third.  That one is only compared after decoding:
  the record is accepted if and only if it is the writer's, but for the clock bits
  of its third word (`ibmMfmCheckDam_accepts`).
-/
import FlashFloppyTestbed.Coder
import FlashFloppyTestbed.Disk.Format

set_option autoImplicit false

namespace FlashFloppyTestbed

open FlashFloppyTestbed.Foundation FlashFloppyTestbed.Floppy

/-! ## The check -/

/-- What `ibm_mfm_read_sector` does with the record in its buffer. -/
def ibmMfmCheckDam (m : Mem) (p : Nat) (idam : Idam) : SectorRead :=
  let damBytes := 4 + idam.size + 2
  let reported := mfmCheck m (p + 6) (damBytes - 3)
  let m := mfmToBin m p damBytes
  { data := m.bytes (p + 4) idam.size
    warned := decide (reported ≠ []) || decide (m.bytes p 3 ≠ mfmIdamMark.take 3) ||
      decide (m (p + 3) ≠ 0xfb) || decide (crc16Ccitt (m.bytes p damBytes) 0xffff ≠ 0) }

/-- The buffer of a read that found the mark at `o`. -/
def Disk.damBuffer (d : Disk) (m : Mem) (p : Nat) (idam : Idam) (o : Nat) : Mem :=
  m.stBits p (d.stream o (16 * (4 + idam.size + 2)))

/-- A sector read is a search, and a check of the record at the next mark. -/
theorem ibmMfmReadSector_eq {d : Disk} {resume : Nat → Nat} {fuel : Nat} {m : Mem} {p₁ p₂ : Nat}
    {idam : Idam} {t o : Nat} {f : Found}
    (hsearch : ibmMfmSearch d resume p₁ idam t fuel t m false = some f)
    (hfind : d.findSync (resume f.endPos) = some o) :
    ibmMfmReadSector d resume fuel m p₁ p₂ idam t =
      some ⟨(ibmMfmCheckDam (d.damBuffer f.mem p₂ idam o) p₂ idam).data,
        f.warned || (ibmMfmCheckDam (d.damBuffer f.mem p₂ idam o) p₂ idam).warned⟩ := by
  have hread : d.floppyRead f.mem p₂ (4 + idam.size + 2) (resume f.endPos) =
      some (d.damBuffer f.mem p₂ idam o, o) := by
    rw [Disk.floppyRead, hfind]
    rfl
  rw [ibmMfmReadSector, hsearch, Option.bind_some]
  simp only [hread, Option.map_some, ibmMfmCheckDam, Bool.or_assoc]

/-! ## The words of a record -/

/-- The words of a data field from its mark through its CRC, with `w` for the third
sync word. -/
def damWords (w : BitVec 16) (data : List Byte) : List (BitVec 16) :=
  syncWord :: syncWord :: w :: mfmWords true ((damRecord data).drop 3)

@[simp] theorem length_damWords (w : BitVec 16) (data : List Byte) :
    (damWords w data).length = data.length + 6 := by
  rw [damWords, List.length_cons, List.length_cons, List.length_cons, length_mfmWords,
    List.length_drop, length_damRecord]
  omega

/-- They decode to the record if the third word decodes to 0xa1. -/
theorem map_mfmtobin_damWords {w : BitVec 16} (hw : mfmtobin w = 0xa1) (data : List Byte) :
    (damWords w data).map mfmtobin = damRecord data := by
  have hsync : mfmtobin syncWord = 0xa1 := by decide
  rw [damWords, List.map_cons, List.map_cons, List.map_cons, hsync, hw, map_mfmtobin_mfmWords]
  exact List.take_append_drop 3 (damRecord data)

/-- The data of a record. -/
theorem take_drop_damRecord (data : List Byte) :
    ((damRecord data).drop 4).take data.length = data := by
  rw [damRecord]
  exact List.take_left' rfl

theorem damWords_injective {w w' : BitVec 16} {data data' : List Byte}
    (h : damWords w data = damWords w' data') : w = w' :=
  (List.cons.inj (List.cons.inj (List.cons.inj h).2).2).1

/-- The bitcells of a data field determine its third word. -/
theorem damWords_cells_injective {w w' : BitVec 16} {data data' : List Byte}
    (hlen : data.length = data'.length)
    (h : (damWords w data).flatMap bitsOf = (damWords w' data').flatMap bitsOf) : w = w' :=
  damWords_injective (blocks_injective length_bitsOf (fun _ _ => bitsOf_injective)
    (by rw [length_damWords, length_damWords, hlen]) h)

/-- **The writer's words**: what `ibm_mfm_write_sector` places from its first sync word
through its CRC. -/
theorem ibmMfmSectorBuffer_record (m : Mem) (p : Nat) {buf : List Byte} {idam : Idam} (gap3 : Nat)
    (hbuf : buf.length = idam.size) :
    (((ibmMfmSectorBuffer m p buf idam gap3).wr.bits
        (ibmMfmSectorBuffer m p buf idam gap3).mem).drop (16 * mfmGapSync)).take
          (16 * (4 + idam.size + 2)) =
      (damWords syncWord buf).flatMap bitsOf := by
  obtain ⟨-, y, hbits⟩ := ibmMfmSectorBuffer_spec m p gap3 hbuf
  have hcoded := coded_trackWords y (l := damItems buf (gap3 + gap3 % 2))
    fun it hit => (sound_damItems hit).2
  rw [damItems, List.append_assoc] at hcoded
  obtain ⟨wgap, wrest, hwords, hgap, hrest⟩ := hcoded.split
  obtain ⟨wrecord, wpost, rfl, hrecord, -⟩ := hrest.split
  have hlen : wgap.length = mfmGapSync := by
    rw [hgap.length_eq, length_seamItems, List.length_replicate]
  have hrecord' : wrecord = damWords syncWord buf := words_recordItems hrecord
  have hrecordLen : wrecord.length = 4 + idam.size + 2 := by
    rw [hrecord', length_damWords, hbuf]
    omega
  rw [hbits, damItems, List.append_assoc, hwords, drop_blocks length_bitsOf,
    take_blocks length_bitsOf, List.drop_left' hlen, List.take_left' hrecordLen, hrecord']

/-! ## What is accepted -/

/-- Behind the mark, the bit in front does not matter: a DAM begins with a set bit. -/
theorem mfmWords_damRecord (y : Bool) (data : List Byte) :
    mfmWords y ((damRecord data).drop 3) = mfmWords true ((damRecord data).drop 3) := by
  have hdam : (damRecord data).drop 3 = 0xfb :: (data ++
      crcBytes (crc16Ccitt (mfmIdamMark.take 3 ++ 0xfb :: data) 0xffff)) := rfl
  rw [hdam, mfmWords, mfmWords, mfmWord_of_msb (by decide) y true]

/-- The data of a record are what is returned. -/
theorem ibmMfmCheckDam_data {m : Mem} {p : Nat} {idam : Idam} {w : BitVec 16} {data : List Byte}
    (hw : mfmtobin w = 0xa1) (hdata : data.length = idam.size)
    (hwords : m.words p (4 + idam.size + 2) = damWords w data) :
    (ibmMfmCheckDam m p idam).data = data := by
  have hsub := Mem.bytes_sub (mfmToBin m p (4 + idam.size + 2)) p (4 + idam.size + 2) 4 idam.size
    (Nat.le_add_right _ _)
  rw [mfmToBin_bytes, hwords, map_mfmtobin_damWords hw, ← hdata, take_drop_damRecord] at hsub
  rw [ibmMfmCheckDam, ← hdata]
  exact hsub

/-- The bytes of the record, part by part. -/
theorem bytes_split (m : Mem) (p n : Nat) :
    m.bytes p (4 + n + 2) =
      m.bytes p 3 ++ m (p + 3) :: m.bytes (p + 4) n ++ m.bytes (p + 4 + n) 2 := by
  rw [Mem.bytes_add m p (4 + n) 2, Mem.bytes_add m p 4 n, Mem.bytes_add m p 3 1, ← Nat.add_assoc]
  simp only [Mem.bytes_succ, Mem.bytes_zero, List.cons_append, List.nil_append]

/-- **A data field is accepted** if and only if it is the writer's, but for the clock bits
of its third word. -/
theorem ibmMfmCheckDam_accepts {m : Mem} {p : Nat} {idam : Idam} {ws : List (BitVec 16)}
    (hwords : m.words p (4 + idam.size + 2) = syncWord :: syncWord :: ws) :
    (ibmMfmCheckDam m p idam).warned = false ↔
      ∃ w, mfmtobin w = 0xa1 ∧
        m.words p (4 + idam.size + 2) = damWords w (ibmMfmCheckDam m p idam).data := by
  obtain ⟨n, hn⟩ : ∃ n, n = idam.size := ⟨_, rfl⟩
  obtain ⟨m', hm'⟩ : ∃ m', m' = mfmToBin m p (4 + n + 2) := ⟨_, rfl⟩
  obtain ⟨data, hdata⟩ : ∃ data, data = m'.bytes (p + 4) n := ⟨_, rfl⟩
  have hwarned : (ibmMfmCheckDam m p idam).warned = false ↔ mfmCheck m (p + 6) (n + 3) = [] ∧
      m'.bytes p 3 = mfmIdamMark.take 3 ∧ m' (p + 3) = 0xfb ∧
        crc16Ccitt (m'.bytes p (4 + n + 2)) 0xffff = 0 := by
    rw [ibmMfmCheckDam, ← hn, ← hm', show 4 + n + 2 - 3 = n + 3 by omega]
    simp [and_assoc]
  have hread : (ibmMfmCheckDam m p idam).data = data := by
    rw [ibmMfmCheckDam, ← hn, ← hm', hdata]
  have hlen : data.length = n := by rw [hdata, Mem.length_bytes]
  have hthree : m.words p (4 + n + 2) =
      m.word p :: m.word (p + 2) :: m.word (p + 4) :: m.words (p + 6) (n + 3) := by
    rw [show 4 + n + 2 = n + 3 + 1 + 1 + 1 by omega, Mem.words_succ, Mem.words_succ, Mem.words_succ]
  have hdecode : m'.bytes p (4 + n + 2) = (m.words p (4 + n + 2)).map mfmtobin := by
    rw [hm', mfmToBin_bytes]
  have hsplit := bytes_split m' p n
  rw [← hdata] at hsplit
  rw [hwarned, hread, ← hn]
  rw [← hn] at hwords
  constructor
  · rintro ⟨hcheck, hmark, hdam, hcrc⟩
    -- mark, DAM and CRC: the bytes are those of a record
    rw [hsplit, hmark, hdam, crc16Ccitt_append_eq_zero_iff _ _ _ (Mem.length_bytes _ _ _)] at hcrc
    have hrecord : m'.bytes p (4 + n + 2) = damRecord data := by
      rw [hsplit, hmark, hdam, hcrc]
      rfl
    rw [hdecode, hthree, List.map_cons, List.map_cons, List.map_cons] at hrecord
    -- `mfm_check`: the words behind the third are their code words
    have hrest : m.words (p + 6) (n + 3) = mfmWords true ((damRecord data).drop 3) := by
      rw [mfmCheck_words hcheck, ← mfmWords_damRecord, ← hrecord]
      rfl
    have hthird : mfmtobin (m.word (p + 4)) = 0xa1 :=
      (List.cons.inj (List.cons.inj (List.cons.inj hrecord).2).2).1
    refine ⟨m.word (p + 4), hthird, ?_⟩
    rw [hthree] at hwords
    rw [hthree, hrest, (List.cons.inj hwords).1, (List.cons.inj (List.cons.inj hwords).2).1]
    rfl
  · rintro ⟨w, hw, hrecord⟩
    have hbytes : m'.bytes p (4 + n + 2) = damRecord data := by
      rw [hdecode, hrecord, map_mfmtobin_damWords hw]
    have hrest : m.words (p + 6) (n + 3) = mfmWords true ((damRecord data).drop 3) := by
      rw [hthree, damWords] at hrecord
      exact (List.cons.inj (List.cons.inj (List.cons.inj hrecord).2).2).2
    have hparts := hsplit.symm.trans hbytes
    rw [damRecord] at hparts
    have hfront := (List.append_inj hparts (by
      rw [List.length_append, List.length_append, Mem.length_bytes, List.length_cons,
        List.length_cons]
      rfl)).1
    obtain ⟨hmark, hdam⟩ := List.append_inj hfront (Mem.length_bytes _ _ _)
    refine ⟨?_, hmark, (List.cons.inj hdam).1, ?_⟩
    · refine mfmCheck_eq_nil (l := (damRecord data).drop 3) ?_
      rw [hrest]
      exact (mfmWords_damRecord _ data).symm
    · rw [hbytes]
      exact crc16Ccitt_append_self _ _

/-! ## On the disk -/

/-- The cells are those of a data field, but its third word is 0xa1 with other clock
bits than a sync word has. -/
def MalformedMark (cells : List Bool) (n : Nat) : Prop :=
  ∃ w data, data.length = n ∧ mfmtobin w = 0xa1 ∧ w ≠ syncWord ∧
    cells = (damWords w data).flatMap bitsOf

namespace Disk

variable {d : Disk} {idam : Idam} {o : Nat}

/-- The words in the buffer are the bitcells of the disk. -/
theorem words_damBuffer (d : Disk) (m : Mem) (p : Nat) (idam : Idam) (o : Nat) :
    ((d.damBuffer m p idam o).words p (4 + idam.size + 2)).flatMap bitsOf =
      d.stream o (16 * (4 + idam.size + 2)) := by
  rw [Mem.words_flatMap_bitsOf, damBuffer, Mem.bits_stBits]
  rw [length_stream]
  omega

/-- They begin with the two words of the mark. -/
theorem words_damBuffer_mark (hsync : d.SyncAt o) (m : Mem) (p : Nat) (idam : Idam) :
    ∃ ws, (d.damBuffer m p idam o).words p (4 + idam.size + 2) = syncWord :: syncWord :: ws := by
  have hwords := words_damBuffer d m p idam o
  obtain ⟨b, hb⟩ : ∃ b, b = d.damBuffer m p idam o := ⟨_, rfl⟩
  have hlen : 4 + idam.size + 2 = 4 + idam.size + 1 + 1 := by omega
  rw [← hb, hlen, Mem.words_succ, Mem.words_succ, List.flatMap_cons, List.flatMap_cons,
    show 16 * (4 + idam.size + 1 + 1) = 32 + 16 * (4 + idam.size) by omega, stream_add,
    show d.stream o 32 = bitsOf syncWord ++ bitsOf syncWord from hsync, List.append_assoc] at hwords
  obtain ⟨hw₀, hrest⟩ := List.append_inj hwords (by rw [length_bitsOf, length_bitsOf])
  obtain ⟨hw₁, -⟩ := List.append_inj hrest (by rw [length_bitsOf, length_bitsOf])
  rw [← hb, hlen, Mem.words_succ, Mem.words_succ, bitsOf_injective hw₀, bitsOf_injective hw₁]
  exact ⟨_, rfl⟩

/-- The bitcells spell some words if and only if the buffer holds them. -/
theorem stream_eq_damWords_iff (d : Disk) (m : Mem) (p : Nat) {idam : Idam} (o : Nat)
    (w : BitVec 16) {data : List Byte} (hdata : data.length = idam.size) :
    d.stream o (16 * (4 + idam.size + 2)) = (damWords w data).flatMap bitsOf ↔
      (d.damBuffer m p idam o).words p (4 + idam.size + 2) = damWords w data := by
  rw [← words_damBuffer d m p idam o]
  refine ⟨fun h => ?_, fun h => by rw [h]⟩
  refine blocks_injective length_bitsOf (fun _ _ => bitsOf_injective) ?_ h
  rw [Mem.length_words, length_damWords, hdata]
  omega

end Disk

/-- **`ibm_mfm_read_sector` accepts exactly the writer's data fields**, unless the third
sync word of the field is 0xa1 with other clock bits in front of a field that is in
order. -/
theorem ibm_mfm_read_sector_exact {d : Disk} {resume : Nat → Nat} {fuel : Nat} {m : Mem}
    {p₁ p₂ : Nat} {idam : Idam} {t o : Nat} {f : Found}
    (hsearch : ibmMfmSearch d resume p₁ idam t fuel t m false = some f)
    (hfind : d.findSync (resume f.endPos) = some o) (mw : Mem) (pw gap3 : Nat) :
    let c := ibmMfmCheckDam (d.damBuffer f.mem p₂ idam o) p₂ idam
    let w := ibmMfmSectorBuffer mw pw c.data idam gap3
    ibmMfmReadSector d resume fuel m p₁ p₂ idam t = some ⟨c.data, f.warned || c.warned⟩ ∧
    ((c.warned = false ↔ d.stream o (16 * (4 + idam.size + 2)) =
        ((w.wr.bits w.mem).drop (16 * mfmGapSync)).take (16 * (4 + idam.size + 2))) ↔
      ¬ MalformedMark (d.stream o (16 * (4 + idam.size + 2))) idam.size) := by
  intro c w
  refine ⟨ibmMfmReadSector_eq hsearch hfind, ?_⟩
  have hdata : c.data.length = idam.size := Mem.length_bytes _ _ _
  obtain ⟨ws, hmark⟩ := Disk.words_damBuffer_mark (Disk.syncAt_of_findSync hfind) f.mem p₂ idam
  have hiff := fun w' data => @Disk.stream_eq_damWords_iff d f.mem p₂ idam o w' data
  rw [ibmMfmSectorBuffer_record mw pw gap3 hdata, ibmMfmCheckDam_accepts hmark,
    hiff syncWord _ hdata]
  constructor
  · rintro hexact ⟨w', data, hlen, hw', hne, hcells⟩
    rw [hiff w' _ hlen] at hcells
    have hsame : c.data = data := ibmMfmCheckDam_data hw' hlen hcells
    rw [hsame] at hexact
    exact hne (damWords_injective (hcells.symm.trans (hexact.mp ⟨w', hw', hcells⟩)))
  · intro hnone
    refine ⟨fun ⟨w', hw', hcells⟩ => ?_, fun h => ⟨syncWord, by decide, h⟩⟩
    by_contra hne
    refine hnone ⟨w', c.data, hdata, hw', fun heq => hne ?_, (hiff w' _ hdata).mpr hcells⟩
    rw [← heq]
    exact hcells

/-! ## A disk with one data field -/

/-- The words of a header. -/
def idamWords (i : Idam) : List (BitVec 16) :=
  syncWord :: syncWord :: syncWord :: mfmWords true ((idamRecord i).drop 3)

@[simp] theorem length_idamWords (i : Idam) : (idamWords i).length = 10 := rfl

/-- A header and, right behind it, a data field with `w` for its third sync word. -/
def damDisk (i : Idam) (w : BitVec 16) (data : List Byte) : Disk :=
  Disk.ofBits ((idamWords i ++ damWords w data).flatMap bitsOf)

section DamDisk

variable (i : Idam) (w : BitVec 16) (data : List Byte)

theorem length_damDisk :
    ((idamWords i ++ damWords w data).flatMap bitsOf).length = 16 * (10 + (data.length + 6)) := by
  rw [length_flatMap_bitsOf, List.length_append, length_idamWords, length_damWords]

theorem size_damDisk : (damDisk i w data).size = 16 * (10 + (data.length + 6)) :=
  length_damDisk i w data

theorem stream_damDisk_idam {n : Nat} (hn : n ≤ 10) :
    (damDisk i w data).stream 0 (16 * n) = ((idamWords i).take n).flatMap bitsOf := by
  have hlen := length_damDisk i w data
  rw [damDisk, Disk.stream_ofBits (by omega), List.drop_zero, take_blocks length_bitsOf,
    List.take_append_of_le_length (by rw [length_idamWords]; exact hn)]

theorem stream_damDisk_dam {n : Nat} (hn : n ≤ data.length + 6) :
    (damDisk i w data).stream 160 (16 * n) = ((damWords w data).take n).flatMap bitsOf := by
  have hlen := length_damDisk i w data
  rw [damDisk, Disk.stream_ofBits (by omega), show 160 = 16 * 10 from rfl,
    drop_blocks length_bitsOf, take_blocks length_bitsOf, List.drop_left' (length_idamWords i)]

/-- The whole data field. -/
theorem stream_damDisk (hdata : data.length = i.size) :
    (damDisk i w data).stream 160 (16 * (4 + i.size + 2)) = (damWords w data).flatMap bitsOf := by
  rw [stream_damDisk_dam i w data (by omega),
    List.take_of_length_le (by rw [length_damWords]; omega)]

theorem findSync_damDisk_idam : (damDisk i w data).findSync 0 = some 0 := by
  have hsize := size_damDisk i w data
  refine Disk.findSync_eq (stream_damDisk_idam i w data (n := 2) (by decide)) (Nat.le_refl 0)
    (fun o' _ hlt => absurd hlt (Nat.not_lt_zero o')) (by omega)

theorem findSync_damDisk_dam : (damDisk i w data).findSync 160 = some 160 := by
  have hsize := size_damDisk i w data
  refine Disk.findSync_eq (stream_damDisk_dam i w data (n := 2) (by omega)) (Nat.le_refl 160)
    (fun o' hle hlt => absurd hlt (Nat.not_lt.mpr hle)) (by omega)

/-- The header is found at once. -/
theorem ibmMfmSearch_damDisk (m : Mem) (p : Nat) :
    ∃ m', ibmMfmSearch (damDisk i w data) (fun _ => 160) p i 0 1 0 m false =
      some ⟨m', 160, false⟩ := by
  obtain ⟨b, hb⟩ : ∃ b, b = m.stBits p ((damDisk i w data).stream 0 160) := ⟨_, rfl⟩
  have hread : (damDisk i w data).floppyRead m p 10 0 = some (b, 0) := by
    rw [Disk.floppyRead, findSync_damDisk_idam, hb]
    rfl
  have hbytes : (mfmToBin b p 10).bytes p 10 = idamRecord i := by
    have hwords := Mem.words_stBits m p (idamWords i)
    rw [mfmToBin_bytes, hb, show 160 = 16 * 10 from rfl,
      stream_damDisk_idam i w data (Nat.le_refl 10), List.take_of_length_le (Nat.le_refl 10),
      show 10 = (idamWords i).length from rfl, hwords, idamWords, List.map_cons, List.map_cons,
      List.map_cons, map_mfmtobin_mfmWords]
    rfl
  have hmark : (mfmToBin b p 10).bytes p 4 = mfmIdamMark := by
    have hsub := Mem.bytes_sub (mfmToBin b p 10) p 10 0 4 (by decide)
    rw [hbytes] at hsub
    exact hsub
  have hidam : (mfmToBin b p 10).bytes (p + 4) 4 = i.bytes := by
    have hsub := Mem.bytes_sub (mfmToBin b p 10) p 10 4 4 (by decide)
    rw [hbytes] at hsub
    exact hsub
  have hcrc : crc16Ccitt ((mfmToBin b p 10).bytes p 10) 0xffff = 0 := by
    rw [hbytes]
    exact crc16Ccitt_append_self _ _
  refine ⟨mfmToBin b p 10, ?_⟩
  rw [ibmMfmSearch, hread, Option.bind_some]
  simp only [hmark, hidam, hcrc, ne_eq, not_true, or_self, if_false]
  rw [Disk.indexCount]
  simp

end DamDisk

/-- What a sector read returns there. -/
theorem ibmMfmReadSector_damDisk {i : Idam} {w : BitVec 16} {data : List Byte}
    (hw : mfmtobin w = 0xa1) (hdata : data.length = i.size) (m : Mem) (p₁ p₂ : Nat) :
    ibmMfmReadSector (damDisk i w data) (fun _ => 160) 1 m p₁ p₂ i 0 = some ⟨data, false⟩ := by
  obtain ⟨m', hsearch⟩ := ibmMfmSearch_damDisk i w data m p₁
  have hfind := findSync_damDisk_dam i w data
  obtain ⟨ws, hmark⟩ := Disk.words_damBuffer_mark (Disk.syncAt_of_findSync hfind) m' p₂ i
  have hwords := (Disk.stream_eq_damWords_iff _ m' p₂ 160 w hdata).mp
    (stream_damDisk i w data hdata)
  have hread := ibmMfmCheckDam_data hw hdata hwords
  have hclean := (ibmMfmCheckDam_accepts hmark).mpr ⟨w, hw, by rw [hread]; exact hwords⟩
  rw [ibmMfmReadSector_eq hsearch hfind, hread, hclean]
  rfl

/-- The sector that is read. -/
def oneSector : Idam := ⟨0, 0, 1, 0⟩

theorem length_oneSector : (List.replicate 128 (0x00 : Byte)).length = oneSector.size :=
  List.length_replicate

/-- A third sync word with all the clock bits of the code for 0xa1: the field is accepted,
and is not what the writer places. -/
theorem ibm_mfm_read_sector_third_sync :
    ibmMfmReadSector (damDisk oneSector 0x44a9 (List.replicate 128 0x00)) (fun _ => 160) 1
        (fun _ => 0) 0 0 oneSector 0 = some ⟨List.replicate 128 0x00, false⟩ ∧
      ∀ mw pw gap3, (damDisk oneSector 0x44a9 (List.replicate 128 0x00)).stream 160
          (16 * (4 + oneSector.size + 2)) ≠
        (((ibmMfmSectorBuffer mw pw (List.replicate 128 0x00) oneSector gap3).wr.bits
          (ibmMfmSectorBuffer mw pw (List.replicate 128 0x00) oneSector gap3).mem).drop
            (16 * mfmGapSync)).take (16 * (4 + oneSector.size + 2)) := by
  have hdata := length_oneSector
  refine ⟨ibmMfmReadSector_damDisk (by decide) hdata _ _ _, fun mw pw gap3 hcells => ?_⟩
  rw [ibmMfmSectorBuffer_record mw pw gap3 hdata, stream_damDisk oneSector _ _ hdata] at hcells
  exact absurd (damWords_cells_injective rfl hcells) (by decide)

/-- A data field as the writer places it. -/
theorem ibm_mfm_read_sector_exact_clean :
    let d := damDisk oneSector syncWord (List.replicate 128 0x00)
    ∃ f, ibmMfmSearch d (fun _ => 160) 0 oneSector 0 1 0 (fun _ => 0) false = some f ∧
      let c := ibmMfmCheckDam (d.damBuffer f.mem 0 oneSector 160) 0 oneSector
      let w := ibmMfmSectorBuffer (fun _ => 0) 0 c.data oneSector 84
      (c.warned = false ↔ d.stream 160 (16 * (4 + oneSector.size + 2)) =
        ((w.wr.bits w.mem).drop (16 * mfmGapSync)).take (16 * (4 + oneSector.size + 2))) := by
  intro d
  obtain ⟨m', hsearch⟩ := ibmMfmSearch_damDisk oneSector syncWord (List.replicate 128 0x00)
    (fun _ => 0) 0
  have hfind := findSync_damDisk_dam oneSector syncWord (List.replicate 128 0x00)
  refine ⟨_, hsearch,
    (ibm_mfm_read_sector_exact hsearch hfind (fun _ => 0) 0 84).2.mpr ?_⟩
  rintro ⟨w, data, hlen, -, hne, hcells⟩
  rw [stream_damDisk oneSector _ _ length_oneSector] at hcells
  exact hne (damWords_cells_injective (length_oneSector.trans hlen.symm) hcells).symm

end FlashFloppyTestbed
