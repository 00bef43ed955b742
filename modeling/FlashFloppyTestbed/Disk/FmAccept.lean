/-
  Disk/FmAccept.lean --- which data fields `ibm_fm_read_sector` accepts.

  A record that is accepted is the writer's, in every data and clock bit from its mark
  through its CRC (`ibmFmCheckDam_accepts`): the mark's clock bits by the test that has
  found it, its data bits by the comparison with 0xfb, and all words behind it by
  `fm_check` and the CRC.  The writer's own bitcells are found and accepted
  (`ibm_fm_sector_exact`).
-/
import FlashFloppyTestbed.Disk.FmSector

set_option autoImplicit false

namespace FlashFloppyTestbed

open FlashFloppyTestbed.Foundation FlashFloppyTestbed.Floppy

/-! ## The check -/

/-- The bytes of the buffer, part by part. -/
theorem bytes_fm_split (m : Mem) (p n : Nat) :
    m.bytes (p + 1) (n + 3) =
      m (p + 1) :: m.bytes (p + 2) n ++ m.bytes (p + 2 + n) 2 := by
  rw [show n + 3 = 1 + n + 2 by omega, Mem.bytes_add m (p + 1) (1 + n) 2,
    Mem.bytes_add m (p + 1) 1 n, show p + 1 + (1 + n) = p + 2 + n by omega]
  rfl

/-- The bytes behind the gap byte are those of the words behind it. -/
theorem bytes_fmToBin (m : Mem) (p n : Nat) :
    (fmToBin m p (2 + n + 2)).bytes (p + 1) (n + 3) =
      (m.words (p + 2) (n + 3)).map mfmtobin := by
  have hall := mfmToBin_bytes m p (n + 3 + 1)
  rw [Mem.bytes_succ, Mem.words_succ, List.map_cons] at hall
  rw [fmToBin, show 2 + n + 2 = n + 3 + 1 by omega]
  exact (List.cons.inj hall).2

/-- **A data field is accepted** if and only if it is the writer's, where its first word
has the clock bits of a mark. -/
theorem ibmFmCheckDam_accepts {m : Mem} {p : Nat} {idam : Idam}
    (hclock : ∀ k, k < 8 → (m.word (p + 2)).getMsbD (2 * k) = fmSyncClk.getMsbD k) :
    (ibmFmCheckDam m p idam).warned = false ↔
      m.words (p + 2) (idam.size + 3) = fmRecordWords (ibmFmCheckDam m p idam).data := by
  obtain ⟨n, hn⟩ : ∃ n, n = idam.size := ⟨_, rfl⟩
  obtain ⟨m', hm'⟩ : ∃ m', m' = fmToBin m p (2 + n + 2) := ⟨_, rfl⟩
  obtain ⟨data, hdata⟩ : ∃ data, data = m'.bytes (p + 2) n := ⟨_, rfl⟩
  have hwarned : (ibmFmCheckDam m p idam).warned = false ↔ fmCheck m (p + 4) (n + 2) = [] ∧
      m' (p + 1) = 0xfb ∧ crc16Ccitt (m'.bytes (p + 1) (n + 3)) 0xffff = 0 := by
    rw [ibmFmCheckDam, ← hn, ← hm', show 2 + n + 2 - 2 = n + 2 by omega,
      show 2 + n + 2 - 1 = n + 3 by omega]
    simp [and_assoc]
  have hread : (ibmFmCheckDam m p idam).data = data := by
    rw [ibmFmCheckDam, ← hn, ← hm', hdata]
  have hfirst : m.words (p + 2) (n + 3) = m.word (p + 2) :: m.words (p + 4) (n + 2) :=
    Mem.words_succ m (p + 2) (n + 2)
  have hdecode : m'.bytes (p + 1) (n + 3) = (m.words (p + 2) (n + 3)).map mfmtobin := by
    rw [hm', bytes_fmToBin]
  have hsplit := bytes_fm_split m' p n
  rw [← hdata] at hsplit
  rw [hwarned, hread, ← hn]
  constructor
  · rintro ⟨hcheck, hdam, hcrc⟩
    -- DAM and CRC: the bytes are those of a record
    rw [hsplit, hdam, crc16Ccitt_append_eq_zero_iff _ _ _ (Mem.length_bytes _ _ _)] at hcrc
    have hrecord : (m.words (p + 2) (n + 3)).map mfmtobin = fmRecord data := by
      rw [← hdecode, hsplit, hdam, hcrc]
      rfl
    rw [hfirst, List.map_cons] at hrecord
    -- `fm_check`: the words behind the mark are code words
    rw [fmCheck_eq_nil_iff] at hcheck
    rw [hfirst, hcheck, eq_fmMark hclock (List.cons.inj hrecord).1, (List.cons.inj hrecord).2]
    rfl
  · intro hrecord
    have hbytes : m'.bytes (p + 1) (n + 3) = fmRecord data := by
      rw [hdecode, hrecord, map_mfmtobin_fmRecordWords]
    have hrest : m.words (p + 4) (n + 2) = ((fmRecord data).drop 1).map fmCode := by
      rw [hfirst, fmRecordWords] at hrecord
      exact (List.cons.inj hrecord).2
    refine ⟨?_, ?_, ?_⟩
    · rw [fmCheck_eq_nil_iff, hrest, map_mfmtobin_fmCode]
    · exact (List.cons.inj (hsplit.symm.trans hbytes)).1
    · rw [hbytes]
      exact crc16Ccitt_append_self _ _

/-- The data of a record are what is returned. -/
theorem ibmFmCheckDam_data {m : Mem} {p : Nat} {idam : Idam} {data : List Byte}
    (hdata : data.length = idam.size)
    (hwords : m.words (p + 2) (idam.size + 3) = fmRecordWords data) :
    (ibmFmCheckDam m p idam).data = data := by
  have hsplit := bytes_fm_split (fmToBin m p (2 + idam.size + 2)) p idam.size
  rw [bytes_fmToBin, hwords, map_mfmtobin_fmRecordWords, fmRecord] at hsplit
  have hfront := (List.append_inj hsplit (by
    rw [List.length_cons, List.length_cons, Mem.length_bytes, hdata])).1
  exact (List.cons.inj hfront).2.symm

/-! ## On the disk -/

namespace Disk

theorem fmSyncAt_mod (d : Disk) (o : Nat) : d.FmSyncAt (o % d.size) ↔ d.FmSyncAt o := by
  rw [FmSyncAt, FmSyncAt, stream, stream, window_mod]

/-- A read that starts at a mark sees that one. -/
theorem findFmSync_self {d : Disk} {o : Nat} (hsync : d.FmSyncAt o) (hsize : 0 < d.size) :
    d.findFmSync o = some o :=
  find?_ring_eq d.fmSyncAt_mod hsync (Nat.le_refl o)
    (fun _ hle hlt => absurd hlt (Nat.not_lt.mpr hle)) hsize

/-- The buffer of a read that has seen the mark behind the 32 bitcells from `o` on. -/
def fmDamBuffer (d : Disk) (m : Mem) (p : Nat) (idam : Idam) (o : Nat) : Mem :=
  m.stBits p (d.stream (o + 1) (16 * (2 + idam.size + 2)))

/-- Its words behind the gap byte. -/
theorem words_fmDamBuffer (d : Disk) (m : Mem) (p : Nat) (idam : Idam) (o : Nat) :
    ((d.fmDamBuffer m p idam o).words (p + 2) (idam.size + 3)).flatMap bitsOf =
      d.stream (o + 17) (16 * (idam.size + 3)) := by
  have hall : ((d.fmDamBuffer m p idam o).words p (idam.size + 3 + 1)).flatMap bitsOf =
      d.stream (o + 1) (16 + 16 * (idam.size + 3)) := by
    rw [Mem.words_flatMap_bitsOf, fmDamBuffer,
      show 16 * (2 + idam.size + 2) = 16 + 16 * (idam.size + 3) by omega, Mem.bits_stBits]
    rw [length_stream]
    omega
  rw [Mem.words_succ, List.flatMap_cons, stream_add] at hall
  exact (List.append_inj hall (by rw [length_bitsOf, length_stream])).2

theorem stream_eq_fmRecordWords_iff (d : Disk) (m : Mem) (p : Nat) {idam : Idam} (o : Nat)
    {data : List Byte} (hdata : data.length = idam.size) :
    d.stream (o + 17) (16 * (idam.size + 3)) = (fmRecordWords data).flatMap bitsOf ↔
      (d.fmDamBuffer m p idam o).words (p + 2) (idam.size + 3) = fmRecordWords data := by
  rw [← words_fmDamBuffer d m p idam o]
  refine ⟨fun h => ?_, fun h => by rw [h]⟩
  refine blocks_injective length_bitsOf (fun _ _ => bitsOf_injective) ?_ h
  rw [Mem.length_words, length_fmRecordWords, hdata]

/-- The clock bits of the mark have been looked at. -/
theorem fmDamBuffer_clock {d : Disk} {o : Nat} (hsync : d.FmSyncAt o) (m : Mem) (p : Nat)
    (idam : Idam) (k : Nat) (hk : k < 8) :
    ((d.fmDamBuffer m p idam o).word (p + 2)).getMsbD (2 * k) = fmSyncClk.getMsbD k := by
  have hwords := words_fmDamBuffer d m p idam o
  rw [Mem.words_succ, List.flatMap_cons, show 16 * (idam.size + 3) = 16 + 16 * (idam.size + 2) by
    omega, stream_add] at hwords
  have hword := (List.append_inj hwords (by rw [length_bitsOf, length_stream])).1
  have hpattern : ∀ k : Fin 8, fmMask.getMsbD (17 + 2 * k) = true ∧
      fmPattern.getMsbD (17 + 2 * k) = fmSyncClk.getMsbD k := by
    decide
  obtain ⟨hmask, hclk⟩ := hpattern ⟨k, hk⟩
  have hcell := (fm_shows_iff (length_stream d o 32)).mp hsync (17 + 2 * k) (by omega) hmask
  have hsplit : d.stream o 32 = d.stream o 17 ++ d.stream (o + 17) 15 := stream_add d o 17 15
  rw [hsplit, List.getElem?_append_right (by rw [length_stream]; omega), length_stream,
    Nat.add_sub_cancel_left, hclk, ← take_stream d (o + 17) (show 15 ≤ 16 by decide), ← hword,
    List.getElem?_take_of_lt (by omega),
    List.getElem?_eq_getElem (by rw [length_bitsOf]; omega), getElem_bitsOf] at hcell
  exact Option.some.inj hcell

end Disk

/-- A sector read is a search, and a check of the record at the next mark. -/
theorem ibmFmReadSector_eq {d : Disk} {resume : Nat → Nat} {fuel : Nat} {m : Mem} {p₁ p₂ : Nat}
    {idam : Idam} {t o : Nat} {f : Found}
    (hsearch : ibmFmSearch d resume p₁ idam t fuel t m false = some f)
    (hfind : d.findFmSync (resume f.endPos) = some o) :
    ibmFmReadSector d resume fuel m p₁ p₂ idam t =
      some ⟨(ibmFmCheckDam (d.fmDamBuffer f.mem p₂ idam o) p₂ idam).data,
        f.warned || (ibmFmCheckDam (d.fmDamBuffer f.mem p₂ idam o) p₂ idam).warned⟩ := by
  have hread : d.floppyReadFm f.mem p₂ (2 + idam.size + 2) (resume f.endPos) =
      some (d.fmDamBuffer f.mem p₂ idam o, o + 1) := by
    rw [Disk.floppyReadFm, hfind]
    rfl
  rw [ibmFmReadSector, hsearch, Option.bind_some]
  simp only [hread, Option.map_some]

/-- **The writer's record**, from its mark through its CRC. -/
theorem ibmFmSectorBuffer_record (m : Mem) (p : Nat) {buf : List Byte} {idam : Idam} (gap3 : Nat)
    (hbuf : buf.length = idam.size) :
    (((ibmFmSectorBuffer m p buf idam gap3).wr.bits
        (ibmFmSectorBuffer m p buf idam gap3).mem).drop (16 * fmGapSync)).take
          (16 * (idam.size + 3)) =
      (fmRecordWords buf).flatMap bitsOf := by
  rw [(ibmFmSectorBuffer_spec m p gap3 hbuf).2, fmSectorWords, List.append_assoc,
    drop_blocks length_bitsOf, take_blocks length_bitsOf, List.drop_left' List.length_replicate,
    List.take_left' (by rw [length_fmRecordWords, hbuf])]

/-- **Well-timed flux of the writer's bitcells** is delivered from the word in front of the
mark on: `rdata_wait_sync` counts 31 bitcells of its register. -/
theorem readCells_fmSector {cell : BitVec 16} (bcMax : Nat) {data : List Byte} {gap3 : Nat}
    {cs : List (BitVec 16)}
    (h : List.Forall₂ (Timed cell.toNat)
      (gaps ((fmSectorWords data gap3).flatMap bitsOf)) cs)
    (hfit : ∀ g ∈ gaps ((fmSectorWords data gap3).flatMap bitsOf), g * cell.toNat ≤ 65535) :
    readCells .fm cell bcMax cs =
      some ((ofGaps (gaps ((fmSectorWords data gap3).flatMap bitsOf))).drop 80) := by
  obtain ⟨l, hl⟩ : ∃ l, l = (fmSectorWords data gap3).flatMap bitsOf := ⟨_, rfl⟩
  have hshows : ∀ k, k ≤ l.length → (Sync.fm.Shows (l.take k) ↔ k = 111) := by
    intro k hk
    rw [hl] at hk ⊢
    exact fmSectorWords_shows_iff data gap3 hk
  have hlen : 111 ≤ l.length := by
    rw [hl, length_flatMap_bitsOf, length_fmSectorWords]
    omega
  have hmark := (hshows 111 hlen).mpr rfl
  have hfound : Sync.fm.found (pushBits (~~~0) (l.take 111)) = 31 := by
    have hne : Sync.fm.found (pushBits (~~~0) (l.take 111)) ≠ 0 := hmark
    rw [found_fm] at hne ⊢
    split at hne
    · rename_i heq
      rw [if_pos heq]
    · exact absurd rfl hne
  rw [← hl] at h hfit ⊢
  -- the mark ends with a set bitcell, so the clear ones at the end are behind it
  have hset : l[110]? = some true := by
    rw [List.take_succ_eq_append_getElem (by omega)] at hmark
    rw [List.getElem?_eq_getElem (by omega)]
    cases hbit : l[110]
    · rw [hbit] at hmark
      exact absurd hmark Sync.not_shows_clear
    · rfl
  have hend := lt_length_ofGaps_gaps hset
  obtain ⟨r, hr⟩ := ofGaps_gaps l
  have htake : ∀ k, k ≤ 111 → (ofGaps (gaps l)).take k = l.take k := by
    intro k hk
    conv => rhs; rw [hr]
    rw [List.take_append_of_le_length (by omega)]
  rw [readCells_of_first (by decide) bcMax h hfit (n := 111)
    (by rw [htake 111 (by decide)]; exact hmark) (by omega) fun k hk => ?_,
    htake 111 (by decide), hfound]
  rw [htake k (by omega), hshows k (by omega)]
  omega

/-- A buffer that the writer's bitcells were delivered into. -/
theorem ibmFmCheckDam_written (m : Mem) (p : Nat) {idam : Idam} {data : List Byte} (gap3 : Nat)
    (hdata : data.length = idam.size) :
    ibmFmCheckDam (m.stBits p ((((fmSectorWords data gap3).flatMap bitsOf).drop 80).take
      (16 * (2 + idam.size + 2)))) p idam = ⟨data, false⟩ := by
  have hbehind : ((fmSectorWords data gap3).drop 5).take (2 + idam.size + 2) =
      fmCode 0x00 :: fmRecordWords data := by
    rw [fmSectorWords, List.append_assoc, show 2 + idam.size + 2 = idam.size + 3 + 1 by omega]
    show fmCode 0x00 :: (fmRecordWords data ++ _).take (idam.size + 3) = _
    rw [List.take_left' (by rw [length_fmRecordWords, hdata])]
  rw [show 80 = 16 * 5 from rfl, drop_blocks length_bitsOf, take_blocks length_bitsOf, hbehind]
  obtain ⟨b, hb⟩ : ∃ b, b = m.stBits p ((fmCode 0x00 :: fmRecordWords data).flatMap bitsOf) :=
    ⟨_, rfl⟩
  have hwords := Mem.words_stBits m p (fmCode 0x00 :: fmRecordWords data)
  rw [← hb, List.length_cons, length_fmRecordWords, hdata, Mem.words_succ] at hwords
  have hrecord : b.words (p + 2) (idam.size + 3) = fmRecordWords data := (List.cons.inj hwords).2
  have hmark : b.word (p + 2) = fmMark := by
    rw [Mem.words_succ, fmRecordWords] at hrecord
    exact (List.cons.inj hrecord).1
  have hread := ibmFmCheckDam_data hdata hrecord
  have hclean := (@ibmFmCheckDam_accepts b p idam fun k hk => by
    rw [hmark]
    exact (fmMark_getMsbD ⟨k, hk⟩).1).mpr (by rw [hread]; exact hrecord)
  rw [← hb]
  exact congrArg₂ SectorRead.mk hread hclean

/-- **FM data fields: acceptance is exact and inverts the writer.**  In the writer's
bitcells the test for a mark passes once, what is delivered from there is read without a
warning as the data that were written; and wherever the test passes, the record behind it
is read without a warning if and only if it is the writer's, for the data returned. -/
theorem ibm_fm_sector_exact (mw : Mem) (pw gap3 : Nat) (idam : Idam) :
    let bits := fun buf => (ibmFmSectorBuffer mw pw buf idam gap3).wr.bits
      (ibmFmSectorBuffer mw pw buf idam gap3).mem
    (∀ buf, buf.length = idam.size →
      (∀ k, k ≤ (bits buf).length → (Sync.fm.Shows ((bits buf).take k) ↔ k = 111)) ∧
      (∀ (cell : BitVec 16) (bcMax : Nat) (cs : List (BitVec 16)),
        List.Forall₂ (Timed cell.toNat) (gaps (bits buf)) cs →
        (∀ g ∈ gaps (bits buf), g * cell.toNat ≤ 65535) →
        readCells .fm cell bcMax cs = some ((ofGaps (gaps (bits buf))).drop 80)) ∧
      ∀ (m : Mem) (p : Nat), ibmFmCheckDam
        (m.stBits p (((bits buf).drop 80).take (16 * (2 + idam.size + 2)))) p idam =
          ⟨buf, false⟩) ∧
    ∀ (d : Disk) (resume : Nat → Nat) (fuel : Nat) (m : Mem) (p₁ p₂ t : Nat) (f : Found) (o : Nat),
      ibmFmSearch d resume p₁ idam t fuel t m false = some f →
      d.findFmSync (resume f.endPos) = some o →
      let c := ibmFmCheckDam (d.fmDamBuffer f.mem p₂ idam o) p₂ idam
      ibmFmReadSector d resume fuel m p₁ p₂ idam t = some ⟨c.data, f.warned || c.warned⟩ ∧
      (c.warned = false ↔ d.stream (o + 17) (16 * (idam.size + 3)) =
        ((bits c.data).drop (16 * fmGapSync)).take (16 * (idam.size + 3))) := by
  intro bits
  refine ⟨fun buf hbuf => ?_, fun d resume fuel m p₁ p₂ t f o hsearch hfind => ?_⟩
  · have hbits : bits buf = (fmSectorWords buf (gap3 + (gap3 + 1) % 2)).flatMap bitsOf :=
      (ibmFmSectorBuffer_spec mw pw gap3 hbuf).2
    rw [hbits]
    exact ⟨fun k hk => fmSectorWords_shows_iff buf _ hk,
      fun cell bcMax cs hcs hfit => readCells_fmSector bcMax hcs hfit,
      fun m p => ibmFmCheckDam_written m p _ hbuf⟩
  · intro c
    have hsync := (of_find?_ring hfind).1
    have hdata : c.data.length = idam.size := Mem.length_bytes _ _ _
    refine ⟨ibmFmReadSector_eq hsearch hfind, ?_⟩
    rw [ibmFmSectorBuffer_record mw pw gap3 hdata, d.stream_eq_fmRecordWords_iff f.mem p₂ o hdata]
    exact ibmFmCheckDam_accepts (Disk.fmDamBuffer_clock hsync f.mem p₂ idam)

/-! ## A disk with one sector -/

/-- The record of a header. -/
def fmIdamRecord (i : Idam) : List Byte :=
  0xfe :: i.bytes ++ crcBytes (crc16Ccitt (0xfe :: i.bytes) 0xffff)

/-- The words of a header, with two words of gap in front of it. -/
def fmIdamWords (i : Idam) : List (BitVec 16) :=
  fmCode 0x00 :: fmCode 0x00 :: fmSync 0xfe fmSyncClk :: ((fmIdamRecord i).drop 1).map fmCode

/-- A header and, right behind it, a data field. -/
def fmDamDisk (i : Idam) (data : List Byte) : Disk :=
  Disk.ofBits ((fmIdamWords i ++ fmSectorWords data 0).flatMap bitsOf)

section FmDamDisk

variable (i : Idam) (data : List Byte)

@[simp] theorem length_fmIdamWords : (fmIdamWords i).length = 9 := rfl

theorem length_fmDamDisk :
    ((fmIdamWords i ++ fmSectorWords data 0).flatMap bitsOf).length = 16 * (data.length + 18) := by
  rw [length_flatMap_bitsOf, List.length_append, length_fmIdamWords, length_fmSectorWords]
  omega

theorem size_fmDamDisk_pos : 0 < (fmDamDisk i data).size := by
  rw [show (fmDamDisk i data).size = _ from length_fmDamDisk i data]
  omega

/-- The mark of the header. -/
theorem findFmSync_idam : (fmDamDisk i data).findFmSync 15 = some 15 := by
  have hlen := length_fmDamDisk i data
  refine Disk.findFmSync_self ?_ (size_fmDamDisk_pos i data)
  have hsplit : fmIdamWords i ++ fmSectorWords data 0 =
      [fmCode 0x00, fmCode 0x00, fmSync 0xfe fmSyncClk] ++
        (((fmIdamRecord i).drop 1).map fmCode ++ fmSectorWords data 0) := rfl
  rw [Disk.FmSyncAt, fmDamDisk, Disk.stream_ofBits (by omega), hsplit, List.flatMap_append,
    List.drop_append_of_le_length (by decide), List.take_append_of_le_length (by decide)]
  decide +kernel

/-- The mark of the data field. -/
theorem findFmSync_dam : (fmDamDisk i data).findFmSync 223 = some 223 := by
  have hlen := length_fmDamDisk i data
  have hlen' : 111 ≤ ((fmSectorWords data 0).flatMap bitsOf).length := by
    rw [length_flatMap_bitsOf, length_fmSectorWords]
    omega
  refine Disk.findFmSync_self ?_ (size_fmDamDisk_pos i data)
  have hshows := (fmSectorWords_shows_iff data 0 hlen').mpr rfl
  rw [show 111 = 79 + 32 from rfl, List.take_add, Sync.shows_append] at hshows
  · rw [Disk.FmSyncAt, fmDamDisk, Disk.stream_ofBits (by omega), List.flatMap_append,
      show 223 = 16 * 9 + 79 from rfl, ← List.drop_drop,
      List.drop_left' (by rw [length_flatMap_bitsOf, length_fmIdamWords])]
    exact hshows
  · rw [List.length_take, List.length_drop]
    omega

/-- The header is found at once. -/
theorem ibmFmSearch_fmDamDisk (m : Mem) (p : Nat) :
    ∃ m', ibmFmSearch (fmDamDisk i data) (fun _ => 223) p i 15 1 15 m false =
      some ⟨m', 144, false⟩ := by
  have hlen := length_fmDamDisk i data
  obtain ⟨b, hb⟩ : ∃ b, b = m.stBits p ((fmDamDisk i data).stream 16 128) := ⟨_, rfl⟩
  have hread : (fmDamDisk i data).floppyReadFm m p 8 15 = some (b, 16) := by
    rw [Disk.floppyReadFm, findFmSync_idam, hb]
    rfl
  have hbytes : (fmToBin b p 8).bytes p 8 = 0x00 :: fmIdamRecord i := by
    have hcells : (fmDamDisk i data).stream 16 128 = ((fmIdamWords i).drop 1).flatMap bitsOf := by
      have hdrop : ((fmIdamWords i ++ fmSectorWords data 0).flatMap bitsOf).drop 16 =
          ((fmIdamWords i).drop 1 ++ fmSectorWords data 0).flatMap bitsOf :=
        drop_blocks length_bitsOf (fmIdamWords i ++ fmSectorWords data 0) 1
      have htake : (((fmIdamWords i).drop 1 ++ fmSectorWords data 0).flatMap bitsOf).take 128 =
          ((fmIdamWords i).drop 1).flatMap bitsOf :=
        take_blocks length_bitsOf ((fmIdamWords i).drop 1 ++ fmSectorWords data 0) 8
      rw [fmDamDisk, Disk.stream_ofBits (by omega), hdrop, htake]
    have hwords : (m.stBits p (((fmIdamWords i).drop 1).flatMap bitsOf)).words p 8 = _ :=
      Mem.words_stBits m p ((fmIdamWords i).drop 1)
    rw [fmToBin, mfmToBin_bytes, hb, hcells, hwords, fmIdamWords, List.drop_succ_cons,
      List.drop_zero, List.map_cons, List.map_cons, mfmtobin_fmCode,
      map_mfmtobin_fmCode, show mfmtobin (fmSync 0xfe fmSyncClk) = 0xfe by decide]
    rfl
  have hsub : ∀ k n, k + n ≤ 8 →
      (fmToBin b p 8).bytes (p + k) n = ((0x00 :: fmIdamRecord i).drop k).take n := by
    intro k n hkn
    rw [← hbytes]
    exact Mem.bytes_sub _ p 8 k n hkn
  have hmark : fmToBin b p 8 (p + 1) = 0xfe := (List.cons.inj (hsub 1 1 (by decide))).1
  have hidam : (fmToBin b p 8).bytes (p + 2) 4 = i.bytes := hsub 2 4 (by decide)
  have hcrc : crc16Ccitt ((fmToBin b p 8).bytes (p + 1) 7) 0xffff = 0 := by
    rw [hsub 1 7 (by decide)]
    exact crc16Ccitt_append_self (0xfe :: i.bytes) _
  refine ⟨fmToBin b p 8, ?_⟩
  rw [ibmFmSearch, hread, Option.bind_some]
  simp only [hmark, hidam, hcrc, ne_eq, not_true, or_self, if_false]
  rw [Disk.indexCount, Nat.sub_self]
  rfl

/-- The data field. -/
theorem stream_fmDamDisk (hdata : data.length = i.size) :
    (fmDamDisk i data).stream 240 (16 * (i.size + 3)) =
      (fmRecordWords data).flatMap bitsOf := by
  have hlen := length_fmDamDisk i data
  have hfront : (fmIdamWords i ++ List.replicate fmGapSync (fmCode 0x00)).length = 15 := rfl
  have hdrop : ((fmIdamWords i ++ fmSectorWords data 0).flatMap bitsOf).drop 240 =
      ((fmIdamWords i ++ fmSectorWords data 0).drop 15).flatMap bitsOf :=
    drop_blocks length_bitsOf (fmIdamWords i ++ fmSectorWords data 0) 15
  rw [fmDamDisk, Disk.stream_ofBits (by omega), hdrop, take_blocks length_bitsOf, fmSectorWords,
    List.append_assoc, ← List.append_assoc, List.drop_left' hfront,
    List.take_left' (by rw [length_fmRecordWords, hdata])]

end FmDamDisk

/-- The sector that is read. -/
def fmOneSector : Idam := ⟨0, 0, 1, 0⟩

/-- A data field as the writer places it, 128 zero bytes, is read back. -/
theorem ibm_fm_sector_exact_clean :
    ibmFmReadSector (fmDamDisk fmOneSector (List.replicate 128 0x00)) (fun _ => 223) 1
      (fun _ => 0) 0 0 fmOneSector 15 = some ⟨List.replicate 128 0x00, false⟩ := by
  have hdata : (List.replicate 128 (0x00 : Byte)).length = fmOneSector.size :=
    List.length_replicate
  obtain ⟨m', hsearch⟩ := ibmFmSearch_fmDamDisk fmOneSector (List.replicate 128 0x00) (fun _ => 0) 0
  have hfind := findFmSync_dam fmOneSector (List.replicate 128 0x00)
  obtain ⟨hread, hexact⟩ := (ibm_fm_sector_exact (fun _ => 0) 0 0 fmOneSector).2 _ _ _ _ 0 0 15 _ _
    hsearch hfind
  have hcells := stream_fmDamDisk fmOneSector (List.replicate 128 0x00) hdata
  have hreturned := ibmFmCheckDam_data hdata
    ((Disk.stream_eq_fmRecordWords_iff _ m' 0 223 hdata).mp hcells)
  rw [hreturned] at hread hexact
  rw [hread, hexact.mpr (by rw [ibmFmSectorBuffer_record (fun _ => 0) 0 0 hdata]; exact hcells)]
  rfl

end FlashFloppyTestbed
