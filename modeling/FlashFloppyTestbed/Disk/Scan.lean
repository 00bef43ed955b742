/-
  Disk/Scan.lean --- format, then scan: `ibm_mfm_write_track` and `ibm_mfm_scan`.

  A revolution that holds the formatted track and filler up to the index is
  `Formatted`.  A scan that starts at the index meets the marks in order; it takes
  the headers, passes over the data fields, and ends at the first header of the
  next revolution (`ibmMfmScanLoop_spec`).

  A format over an old revolution leaves what is behind it.  Where that is filler the
  revolution is `Formatted` again (`Disk.FilledFrom.format`), and it stays filler for
  the next format (`Disk.Formatted.filledFrom`).
-/
import FlashFloppyTestbed.Disk.Format

set_option autoImplicit false

namespace FlashFloppyTestbed

open FlashFloppyTestbed.Foundation FlashFloppyTestbed.Floppy

/-! ## A formatted disk -/

/-- MFM filler of `n` bitcells, for the data bytes `fs` behind a clear data bit. -/
def filler (fs : List Byte) (n : Nat) : List Bool := ((mfmWords false fs).flatMap bitsOf).take n

/-- The revolution after `ibm_mfm_write_track`: the buffer written, then filler. -/
def formattedDisk (m : Mem) (p : Nat) (idams : List Idam) (gap3 : Nat) (fs : List Byte)
    (n : Nat) : Disk :=
  Disk.ofBits ((ibmMfmWriteTrack m p idams gap3).wr.bits (ibmMfmWriteTrack m p idams gap3).mem ++
    filler fs n)

/-- `ibm_mfm_write_track` over a revolution, from the index on. -/
def Disk.format (d : Disk) (m : Mem) (p : Nat) (idams : List Idam) (gap3 : Nat) : Disk :=
  d.splice 0 ((ibmMfmWriteTrack m p idams gap3).wr.bits (ibmMfmWriteTrack m p idams gap3).mem)

/-- From word `k` on, the revolution holds filler with the data bytes `fs`. -/
structure Disk.FilledFrom (d : Disk) (k : Nat) (fs : List Byte) : Prop where
  size_ge : 16 * k ≤ d.size
  size_le : d.size ≤ 16 * (k + fs.length)
  cells : ∀ r, 16 * k ≤ r → r < d.size →
    d.cells r = ((mfmWords false fs).flatMap bitsOf).getD (r - 16 * k) false

/-- A track ends with a clear data bit. -/
theorem lastBit_trackItems (y : Bool) (gap3 : Nat) (secs : List Sector) :
    lastBit y (itemBytes (trackItems gap3 secs)) = false := by
  rw [trackItems, itemBytes_append, lastBit, List.getLast?_append]
  rfl

/-- **A track with fresh sectors**, and filler behind it, is formatted. -/
theorem Disk.formatted_of_cells {d : Disk} {y : Bool} {idams : List Idam} {gap3 : Nat}
    {fs : List Byte} {l : List Item} (hl : l = trackItems gap3 (freshSectors idams))
    (hge : 16 * l.length ≤ d.size) (hle : d.size ≤ 16 * (l.length + fs.length))
    (hcells : ∀ r, r < d.size → d.cells r =
      ((trackWords y l ++ mfmWords false fs).flatMap bitsOf).getD r false) :
    d.Formatted gap3 (freshSectors idams) fs := by
  refine ⟨⟨y, trackWords y l ++ mfmWords false fs, ?_, fun r hr hlt => ?_⟩, ?_, ?_, ?_⟩
  · rw [← hl]
    have htrack : Coded y l (trackWords y l) :=
      coded_trackWords y fun it hit => (sound_trackItems (hl ▸ hit)).2
    refine htrack.append ?_
    rw [hl, lastBit_trackItems]
    exact coded_codedItems_iff.mpr rfl
  · rw [hcells r hr, List.getD_eq_getElem?_getD, getElem?_flatMap_bitsOf _ r hlt]
    rfl
  · rw [← hl]
    exact hge
  · rw [List.length_append, length_codedItems, ← hl]
    exact hle
  · intro s hs
    obtain ⟨i, _, rfl⟩ := List.mem_map.mp hs
    exact List.length_replicate

/-- **The formatted disk** has fresh sectors. -/
theorem formattedDisk_formatted (m : Mem) (p : Nat) (idams : List Idam) {gap3 : Nat}
    (heven : gap3 % 2 = 0) (fs : List Byte) (n : Nat) :
    (formattedDisk m p idams gap3 fs n).Formatted gap3 (freshSectors idams) fs := by
  obtain ⟨-, y, hbits⟩ := ibmMfmWriteTrack_spec m p idams heven
  obtain ⟨l, hl⟩ : ∃ l, l = trackItems gap3 (freshSectors idams) := ⟨_, rfl⟩
  have hsize : (formattedDisk m p idams gap3 fs n).size =
      16 * l.length + min n (16 * fs.length) := by
    rw [formattedDisk, hbits, Disk.ofBits, List.length_append, length_flatMap_bitsOf,
      length_trackWords, filler, List.length_take, length_flatMap_bitsOf, length_mfmWords, hl]
  refine Disk.formatted_of_cells hl (y := y) (by omega) (by omega) fun r hr => ?_
  have htake : (trackWords y l).flatMap bitsOf ++ filler fs n =
      ((trackWords y l ++ mfmWords false fs).flatMap bitsOf).take (16 * l.length + n) := by
    rw [List.flatMap_append, ← length_trackWords y l, ← length_flatMap_bitsOf,
      List.take_length_add_append, filler]
  have hdisk : (formattedDisk m p idams gap3 fs n).cells r =
      ((trackWords y l).flatMap bitsOf ++ filler fs n).getD r false := by
    rw [formattedDisk, hbits, hl]
    rfl
  rw [hdisk, htake, List.getD_eq_getElem?_getD, List.getElem?_take_of_lt (by omega),
    List.getD_eq_getElem?_getD]

/-- **A format** makes fresh sectors of whatever was in front of the filler. -/
theorem Disk.FilledFrom.format {d : Disk} {idams : List Idam} {gap3 : Nat} {fs : List Byte}
    (h : d.FilledFrom (trackBytes idams gap3) fs) (heven : gap3 % 2 = 0) (m : Mem) (p : Nat) :
    (d.format m p idams gap3).Formatted gap3 (freshSectors idams) fs := by
  obtain ⟨-, y, hbits⟩ := ibmMfmWriteTrack_spec m p idams heven
  obtain ⟨l, hl⟩ : ∃ l, l = trackItems gap3 (freshSectors idams) := ⟨_, rfl⟩
  have hlen : trackBytes idams gap3 = l.length := by
    rw [trackBytes_eq, trackItems_even idams heven, hl, Nat.add_zero]
  rw [hlen] at h
  refine Disk.formatted_of_cells hl (y := y) h.size_ge h.size_le fun r hr => ?_
  have hr : r < d.size := hr
  have hword : ((trackWords y l).flatMap bitsOf).length = 16 * l.length := by
    rw [length_flatMap_bitsOf, length_trackWords]
  have hpos : (r + d.size - 0 % d.size) % d.size = r := by
    rw [Nat.zero_mod, Nat.sub_zero, Nat.add_mod_right, Nat.mod_eq_of_lt hr]
  have hdisk : (d.format m p idams gap3).cells r =
      ((trackWords y l).flatMap bitsOf).getD r (d.cells r) := by
    rw [Disk.format, hbits, ← hl]
    show List.getD _ ((r + d.size - 0 % d.size) % d.size) _ = _
    rw [hpos]
  rw [hdisk, List.flatMap_append]
  rcases Nat.lt_or_ge r (16 * l.length) with hlt | hge
  · rw [List.getD_append _ _ _ _ (hlt.trans_eq hword.symm),
      List.getD_eq_getElem _ _ (hlt.trans_eq hword.symm),
      List.getD_eq_getElem _ _ (hlt.trans_eq hword.symm)]
  · rw [List.getD_append_right _ _ _ _ (hword.trans_le hge), hword,
      List.getD_eq_default _ _ (hword.trans_le hge)]
    exact h.cells r hge hr

/-- Sectors take up what fresh ones with their headers do. -/
theorem sectorsLength_freshSectors (gap3 : Nat) {secs : List Sector}
    (hdata : ∀ s ∈ secs, s.data.length = s.idam.size) :
    sectorsLength gap3 (freshSectors (secs.map Sector.idam)) = sectorsLength gap3 secs := by
  induction secs with
  | nil => rfl
  | cons s secs ih =>
    have hrest := ih fun s' hs => hdata s' (List.mem_cons_of_mem s hs)
    rw [freshSectors] at hrest
    rw [freshSectors, List.map_cons, List.map_cons, sectorsLength_cons, sectorsLength_cons, hrest,
      List.length_replicate, hdata s List.mem_cons_self]

/-- Behind a track there is filler, and the next format finds it there. -/
theorem Disk.Formatted.filledFrom {d : Disk} {gap3 : Nat} {secs : List Sector} {fs : List Byte}
    (h : d.Formatted gap3 secs fs) (heven : gap3 % 2 = 0) :
    d.FilledFrom (trackBytes (secs.map Sector.idam) gap3) fs := by
  rw [trackBytes_eq, trackItems_even _ heven, Nat.add_zero, length_trackItems,
    sectorsLength_freshSectors gap3 h.data, ← length_trackItems]
  obtain ⟨y, ws, hcoded, hcells⟩ := h.words
  obtain ⟨ws₁, ws₂, rfl, htrack, hfiller⟩ := hcoded.split
  rw [lastBit_trackItems, coded_codedItems_iff] at hfiller
  subst hfiller
  have hlen := htrack.length_eq
  have hle := h.size_le
  rw [List.length_append, length_codedItems] at hle
  refine ⟨h.size_ge, hle, fun r hge hr => ?_⟩
  have hroom : r / 16 < (ws₁ ++ mfmWords false fs).length := by
    rw [List.length_append, length_mfmWords]
    omega
  have hin : (r - 16 * ws₁.length) / 16 < (mfmWords false fs).length := by
    rw [length_mfmWords]
    omega
  have hdiv : (r - 16 * ws₁.length) / 16 = r / 16 - ws₁.length := by omega
  have hmod : (r - 16 * ws₁.length) % 16 = r % 16 := by omega
  rw [hcells r hr hroom, List.getElem_append_right (by omega), ← hlen,
    List.getD_eq_getElem?_getD, getElem?_flatMap_bitsOf _ _ hin]
  simp only [hdiv, hmod, Option.getD_some]

/-- **Sync uniqueness in the written stream**: the mark occurs, at whatever bit offset,
only at the first and second sync word of the planted marks. -/
theorem occursAt_written (m : Mem) (p : Nat) (idams : List Idam) {gap3 : Nat}
    (heven : gap3 % 2 = 0) (o : Nat) :
    OccursAt mfmSync
        ((ibmMfmWriteTrack m p idams gap3).wr.bits (ibmMfmWriteTrack m p idams gap3).mem) o ↔
      ∃ off ∈ (ibmMfmWriteTrack m p idams gap3).syncOff, o = 16 * off ∨ o = 16 * off + 16 := by
  obtain ⟨bits, hbits⟩ : ∃ bits, bits = (ibmMfmWriteTrack m p idams gap3).wr.bits
    (ibmMfmWriteTrack m p idams gap3).mem := ⟨_, rfl⟩
  have h := formattedDisk_formatted m p idams heven [] 0
  have hdisk : formattedDisk m p idams gap3 [] 0 = Disk.ofBits bits := by
    rw [formattedDisk, ← hbits, filler, List.take_zero, List.append_nil]
  rw [hdisk] at h
  have hocc : ∀ o, o + 32 ≤ bits.length →
      (OccursAt mfmSync bits o ↔ (Disk.ofBits bits).SyncAt o) := by
    intro o ho
    rw [Disk.SyncAt, Disk.stream_ofBits ho]
    exact Iff.rfl
  have hsize : (Disk.ofBits bits).size = bits.length := rfl
  rw [(ibmMfmWriteTrack_spec m p idams heven).1, ← hbits]
  constructor
  · intro hoccurs
    have hle := hoccurs.le_length mfmSync_ne_nil
    rw [length_mfmSync] at hle
    have hsync := (hocc o hle).mp hoccurs
    rw [h.syncAt_iff, hsize, Nat.mod_eq_of_lt (by omega)] at hsync
    exact hsync
  · rintro ⟨off, hoff, ho⟩
    have hroom := h.mark_room hoff
    rw [hsize] at hroom
    rw [hocc o (by omega), h.syncAt_iff, hsize, Nat.mod_eq_of_lt (by omega)]
    exact ⟨off, hoff, ho⟩

/-! ## The scan -/

theorem markOffs_append {gap3 : Nat} (a b : List Sector) : ∀ st,
    markOffs gap3 st (a ++ b) =
      markOffs gap3 st a ++ markOffs gap3 (st + sectorsLength gap3 a) b := by
  induction a with
  | nil => exact fun _ => rfl
  | cons s a ih =>
    intro st
    rw [List.cons_append, markOffs, markOffs, ih, sectorsLength_cons, length_sectorItems,
      List.cons_append, List.cons_append, Nat.add_assoc st]

/-- The marks behind a sector's data field are those of the sectors behind it. -/
theorem le_of_mem_markOffs_of_lt {gap3 c : Nat} {pre post : List Sector} {s : Sector}
    (hlong : ∀ s' ∈ pre ++ s :: post, 128 ≤ s'.data.length)
    (hc : c ∈ markOffs gap3 64 (pre ++ s :: post)) (hlt : 64 + sectorsLength gap3 pre + 56 < c) :
    64 + sectorsLength gap3 (pre ++ [s]) + 12 ≤ c ∧ post ≠ [] := by
  rw [markOffs_append, List.mem_append, markOffs, List.mem_cons, List.mem_cons] at hc
  rcases hc with hc | rfl | rfl | hc
  · obtain ⟨pre', s', post', rfl, hc⟩ := (mem_markOffs _ _).mp hc
    rw [sectorsLength_append, sectorsLength_cons] at hlt
    omega
  · omega
  · omega
  · have hge := ((markOffs_spaced gap3 post fun s' hs => hlong s' (by simp [hs])) _).1 c hc
    rw [length_sectorItems] at hge
    rw [sectorsLength_append, sectorsLength_cons, show sectorsLength gap3 [] = 0 from rfl]
    refine ⟨by omega, ?_⟩
    rintro rfl
    exact absurd hc List.not_mem_nil

namespace Disk.Formatted

variable {d : Disk} {gap3 : Nat} {fs : List Byte} {pre post : List Sector} {s : Sector}

/-- Between a header and its data field there is no sync mark. -/
theorem not_syncAt_gap2 (h : d.Formatted gap3 (pre ++ s :: post) fs) {o o' : Nat}
    (ho : o % d.size = 16 * (64 + sectorsLength gap3 pre + 12)) (hlo : o + 16 < o')
    (hhi : o' < o + 704) : ¬ d.SyncAt o' := by
  have hidam := idamOff_mem gap3 pre post s
  have hdam := damOff_mem gap3 pre post s
  refine h.not_syncAt_between ho hdam (fun c hc hlt => ?_) hlo (by omega)
  have hapart := markOffs_apart h.long hidam hc
  omega

/-- The position at which a scan that has passed the sectors `pre` meets the next
header, which may be the first one of the next revolution. -/
def nextHeader (d : Disk) (gap3 : Nat) (pre post : List Sector) : Nat :=
  match post with
  | [] => d.size + 16 * (64 + 12)
  | _ :: _ => 16 * (64 + sectorsLength gap3 pre + 12)

/-- Between a data field and the next header there is no sync mark. -/
theorem not_syncAt_gap3 (h : d.Formatted gap3 (pre ++ s :: post) fs) {o' : Nat}
    (hlo : 16 * (64 + sectorsLength gap3 pre + 56) + 16 < o')
    (hhi : o' < nextHeader d gap3 (pre ++ [s]) post) : ¬ d.SyncAt o' := by
  rw [h.syncAt_iff]
  rintro ⟨c, hc, hmod⟩
  have hroom := h.mark_room hc
  have hfirst := ((markOffs_spaced gap3 _ h.long) 64).1 c hc
  have hlater := fun hlt => le_of_mem_markOffs_of_lt h.long hc hlt
  rcases Nat.lt_or_ge o' d.size with hlt | hge
  · rw [Nat.mod_eq_of_lt hlt] at hmod
    obtain ⟨hle, hne⟩ := hlater (by omega)
    cases post with
    | nil => exact hne rfl
    | cons s' post =>
      rw [nextHeader] at hhi
      omega
  · have hdam := h.mark_room (damOff_mem gap3 pre post s)
    cases post with
    | nil =>
      rw [nextHeader] at hhi
      rw [Nat.mod_eq_sub_mod hge, Nat.mod_eq_of_lt (by omega)] at hmod
      omega
    | cons s' post =>
      have hmem := idamOff_mem gap3 (pre ++ [s]) post s'
      rw [List.append_assoc, List.singleton_append] at hmem
      have hroom' := h.mark_room hmem
      rw [nextHeader] at hhi
      omega

theorem syncAt_nextHeader (h : d.Formatted gap3 (pre ++ post) fs) (hne : pre ++ post ≠ []) :
    d.SyncAt (nextHeader d gap3 pre post) := by
  rw [h.syncAt_iff]
  cases post with
  | nil =>
    obtain ⟨s, rest, hsecs⟩ := List.exists_cons_of_ne_nil hne
    have hfirst : 64 + 12 ∈ markOffs gap3 64 (pre ++ []) :=
      (mem_markOffs (pre ++ []) 64).mpr ⟨[], s, rest, hsecs, .inl rfl⟩
    have hroom := h.mark_room hfirst
    refine ⟨_, hfirst, .inl ?_⟩
    rw [nextHeader, Nat.add_mod_left, Nat.mod_eq_of_lt (by omega)]
  | cons s post =>
    have hmark := idamOff_mem gap3 pre post s
    have hroom := h.mark_room hmark
    exact ⟨_, hmark, .inl (Nat.mod_eq_of_lt (by rw [nextHeader]; omega))⟩

section Loop

variable {resume : Nat → Nat} {start : Nat → BitVec 32} {p max : Nat}
  {indexTimestamp : BitVec 32} {fuel t o i : Nat} {m m' : Mem} {info : List ScanInfo}

/-- One pass of the loop that meets a header. -/
theorem scan_header (hread : d.floppyRead m p 10 t = some (m', o)) (hin : o + 160 < d.size)
    (hmark : (mfmToBin m' p 10).bytes p 4 = mfmIdamMark)
    (hcrc : crc16Ccitt ((mfmToBin m' p 10).bytes p 10) 0xffff = 0) :
    ibmMfmScanLoop d resume start p max indexTimestamp (fuel + 1) t m i info =
      ibmMfmScanLoop d resume start p max indexTimestamp fuel (resume (o + 160))
        (mfmToBin m' p 10) (i + 1)
        (if i < max then
          info ++ [⟨(mfmToBin m' p 10).bytes (p + 4) 4, start o - indexTimestamp⟩] else info) := by
  have hcount : ¬ 1 + d.indexCount 0 (o + 160) ≠ 1 := by
    rw [Disk.indexCount, Nat.div_eq_of_lt hin]
    simp
  have hheader : ¬ ((mfmToBin m' p 10).bytes p 4 ≠ mfmIdamMark ∨
      crc16Ccitt ((mfmToBin m' p 10).bytes p 10) 0xffff ≠ 0) := by
    rw [hmark, hcrc]
    simp
  rw [ibmMfmScanLoop, hread]
  exact (if_neg hcount).trans (if_neg hheader)

/-- One pass of the loop that meets something else. -/
theorem scan_other (hread : d.floppyRead m p 10 t = some (m', o)) (hin : o + 160 < d.size)
    (hother : (mfmToBin m' p 10).bytes p 4 ≠ mfmIdamMark ∨
      crc16Ccitt ((mfmToBin m' p 10).bytes p 10) 0xffff ≠ 0) :
    ibmMfmScanLoop d resume start p max indexTimestamp (fuel + 1) t m i info =
      ibmMfmScanLoop d resume start p max indexTimestamp fuel (resume (o + 160))
        (mfmToBin m' p 10) i info := by
  have hcount : ¬ 1 + d.indexCount 0 (o + 160) ≠ 1 := by
    rw [Disk.indexCount, Nat.div_eq_of_lt hin]
    simp
  rw [ibmMfmScanLoop, hread]
  exact (if_neg hcount).trans (if_pos hother)

/-- The pass of the loop that ends behind the next index pulse. -/
theorem scan_end (hread : d.floppyRead m p 10 t = some (m', o)) (hpos : 0 < d.size)
    (hin : d.size ≤ o + 160) :
    ibmMfmScanLoop d resume start p max indexTimestamp (fuel + 1) t m i info = some (i, info) := by
  have hcount : 1 + d.indexCount 0 (o + 160) ≠ 1 := by
    have hge : 1 ≤ (o + 160) / d.size := (Nat.one_le_div_iff hpos).mpr hin
    rw [Disk.indexCount, Nat.zero_div]
    omega
  rw [ibmMfmScanLoop, hread]
  exact if_pos hcount

end Loop

/-- What a scan that has passed the sectors `pre` stores for the headers of `post`. -/
def headers (gap3 : Nat) (start : Nat → BitVec 32) (indexTimestamp : BitVec 32) :
    List Sector → List Sector → List ScanInfo
  | _, [] => []
  | pre, s :: post =>
      ⟨s.idam.bytes, start (16 * (64 + sectorsLength gap3 pre + 12)) - indexTimestamp⟩ ::
        headers gap3 start indexTimestamp (pre ++ [s]) post

theorem map_idam_headers (start : Nat → BitVec 32) (indexTimestamp : BitVec 32)
    (post : List Sector) : ∀ pre, (headers gap3 start indexTimestamp pre post).map ScanInfo.idam =
      post.map fun s => s.idam.bytes := by
  induction post with
  | nil => exact fun _ => rfl
  | cons s post ih =>
    intro pre
    rw [headers, List.map_cons, ih, List.map_cons]

/-- **Two passes of the loop**, from a position in front of the header of a sector on: the
header is counted, and stored if there is room; what the data field yields is passed over. -/
theorem scan_sector (h : d.Formatted gap3 (pre ++ s :: post) fs) {resume : Nat → Nat}
    (hresume : d.Timely 10 resume) (start : Nat → BitVec 32) (p max : Nat)
    (indexTimestamp : BitVec 32) (fuel : Nat) {t : Nat} (m : Mem) (i : Nat)
    (info : List ScanInfo) (hle : t ≤ nextHeader d gap3 pre (s :: post))
    (hnone : ∀ o, t ≤ o → o < nextHeader d gap3 pre (s :: post) → ¬ d.SyncAt o) :
    ∃ m' t', ibmMfmScanLoop d resume start p max indexTimestamp (fuel + 1 + 1) t m i info =
        ibmMfmScanLoop d resume start p max indexTimestamp fuel t' m' (i + 1)
          (if i < max then info ++ [⟨s.idam.bytes,
            start (16 * (64 + sectorsLength gap3 pre + 12)) - indexTimestamp⟩] else info) ∧
      t' ≤ nextHeader d gap3 (pre ++ [s]) post ∧
      ∀ o, t' ≤ o → o < nextHeader d gap3 (pre ++ [s]) post → ¬ d.SyncAt o := by
  have hidam := h.syncAt_nextHeader (by simp)
  have hroom := h.mark_room (damOff_mem gap3 pre post s)
  obtain ⟨o, ho⟩ : ∃ o, o = nextHeader d gap3 pre (s :: post) := ⟨_, rfl⟩
  have ho' : o = 16 * (64 + sectorsLength gap3 pre + 12) := ho
  rw [← ho] at hidam hle hnone
  have homod : o % d.size = 16 * (64 + sectorsLength gap3 pre + 12) := by
    rw [Nat.mod_eq_of_lt (by omega), ho']
  -- the header
  obtain ⟨m₁, hread₁, hmark, hbytes, hcrc⟩ := h.read_header m p
    (Disk.findSync_eq hidam hle hnone h.size_pos) homod
  rw [scan_header hread₁ (by omega) hmark hcrc, hbytes]
  -- the data field
  have hdam : d.SyncAt (o + 704) := by
    rw [h.syncAt_iff]
    exact ⟨_, damOff_mem gap3 pre post s, .inl (by
      rw [Nat.mod_eq_of_lt (by omega)]; omega)⟩
  have hle₁ : resume (o + 160) ≤ o + 704 := Disk.resume_le hresume hidam hdam (by omega)
  have hge₁ : o + 160 ≤ resume (o + 160) := (hresume o hidam).1
  obtain ⟨m₂, hread₂, hother⟩ := h.read_dam (mfmToBin m₁ p 10) p
    (Disk.findSync_eq hdam hle₁ (fun o' hlo hhi => h.not_syncAt_gap2 homod (by omega) hhi)
      h.size_pos) (by rw [Nat.mod_eq_of_lt (by omega)]; omega)
  rw [scan_other hread₂ (by omega) (.inl hother)]
  -- the sectors behind it
  have hrest := h
  rw [List.append_cons] at hrest
  have hnext := hrest.syncAt_nextHeader (by simp)
  have hbehind : o + 704 + 160 ≤ nextHeader d gap3 (pre ++ [s]) post := by
    have hlong := h.long s (by simp)
    cases post with
    | nil =>
      rw [nextHeader]
      omega
    | cons s' post =>
      rw [nextHeader, sectorsLength_append, sectorsLength_cons]
      omega
  have hge₂ : o + 704 + 160 ≤ resume (o + 704 + 160) := (hresume (o + 704) hdam).1
  rw [← ho']
  exact ⟨_, _, rfl, Disk.resume_le hresume hdam hnext hbehind,
    fun o' hlo hhi => h.not_syncAt_gap3 (by omega) hhi⟩

/-- Storing one more header, as long as there is room. -/
theorem store_take (info : List ScanInfo) (x : ScanInfo) (i max : Nat) (l : List ScanInfo) :
    (if i < max then info ++ [x] else info) ++ l.take (max - (i + 1)) =
      info ++ (x :: l).take (max - i) := by
  by_cases hi : i < max
  · rw [if_pos hi, List.append_assoc, show max - i = (max - (i + 1)) + 1 by omega]
    rfl
  · rw [if_neg hi, show max - i = 0 by omega, show max - (i + 1) = 0 by omega]
    rfl

/-- **The loop of `ibm_mfm_scan`**, from a position in front of the next header on, counts
the sectors, and stores their headers with the times of their marks. -/
theorem ibmMfmScanLoop_spec {resume : Nat → Nat} (hresume : d.Timely 10 resume)
    (start : Nat → BitVec 32) (p max : Nat) (indexTimestamp : BitVec 32) :
    ∀ (post pre : List Sector), d.Formatted gap3 (pre ++ post) fs → pre ++ post ≠ [] →
    ∀ (fuel t : Nat) (m : Mem) (i : Nat) (info : List ScanInfo),
      2 * post.length < fuel → t ≤ nextHeader d gap3 pre post →
      (∀ o, t ≤ o → o < nextHeader d gap3 pre post → ¬ d.SyncAt o) →
      ibmMfmScanLoop d resume start p max indexTimestamp fuel t m i info =
        some (i + post.length,
          info ++ (headers gap3 start indexTimestamp pre post).take (max - i)) := by
  intro post
  induction post with
  | nil =>
    intro pre h hne fuel t m i info hfuel hle hnone
    obtain ⟨fuel, rfl⟩ : ∃ f, fuel = f + 1 := ⟨fuel - 1, by omega⟩
    have hfind := Disk.findSync_eq (h.syncAt_nextHeader hne) hle hnone h.size_pos
    rw [headers, List.take_nil, List.append_nil]
    exact scan_end (by rw [Disk.floppyRead, hfind]; rfl) h.size_pos (by rw [nextHeader]; omega)
  | cons s post ih =>
    intro pre h hne fuel t m i info hfuel hle hnone
    rw [List.length_cons] at hfuel
    obtain ⟨fuel, rfl⟩ : ∃ f, fuel = f + 1 + 1 := ⟨fuel - 2, by omega⟩
    obtain ⟨m', t', hpass, hle', hnone'⟩ :=
      h.scan_sector hresume start p max indexTimestamp fuel m i info hle hnone
    rw [List.append_cons] at h
    rw [hpass, ih (pre ++ [s]) h (by simp) fuel t' m' (i + 1) _ (by omega) hle' hnone', store_take,
      headers, List.length_cons]
    congr 2
    omega

/-- Before the first header there is no sync mark. -/
theorem not_syncAt_gap (h : d.Formatted gap3 post fs) (hne : post ≠ []) {o' : Nat}
    (hhi : o' < nextHeader d gap3 [] post) : ¬ d.SyncAt o' := by
  rw [h.syncAt_iff]
  rintro ⟨c, hc, hmod⟩
  have hfirst := ((markOffs_spaced gap3 _ h.long) 64).1 c hc
  have hroom := h.mark_room hc
  cases post with
  | nil => exact hne rfl
  | cons s post =>
    rw [nextHeader, show sectorsLength gap3 [] = 0 from rfl] at hhi
    rw [Nat.mod_eq_of_lt (by omega)] at hmod
    omega

/-- **`ibm_mfm_scan`** of a formatted revolution, started at the index, stores the headers
of its sectors, with the times of their marks. -/
theorem ibmMfmScan_records (h : d.Formatted gap3 post fs) (hne : post ≠ [])
    {resume : Nat → Nat} (hresume : d.Timely 10 resume) (start : Nat → BitVec 32) {fuel : Nat}
    (m : Mem) (p max : Nat) (ticksPerCell indexTimestamp : BitVec 32) {t : Nat}
    (hfuel : 2 * post.length < fuel) (hle : t ≤ 16 * (64 + mfmGapSync)) :
    ∃ r, ibmMfmScan d resume start fuel m p max ticksPerCell indexTimestamp t = some r ∧
      r.count = post.length ∧ r.info = (headers gap3 start indexTimestamp [] post).take max ∧
      r.gap3 = scanGap3 ticksPerCell max r.count r.info := by
  have hnext : nextHeader d gap3 [] post = 16 * (64 + mfmGapSync) := by
    obtain ⟨s, rest, rfl⟩ := List.exists_cons_of_ne_nil hne
    rfl
  have hloop := ibmMfmScanLoop_spec hresume start p max indexTimestamp post [] h hne fuel t m 0 []
    hfuel (by rw [hnext]; exact hle) fun o _ hlt => h.not_syncAt_gap hne hlt
  exact ⟨_, by rw [ibmMfmScan, hloop]; rfl, Nat.zero_add _, rfl, rfl⟩

/-- It takes the headers of the sectors, in order, and nothing else. -/
theorem ibmMfmScan_spec (h : d.Formatted gap3 post fs) (hne : post ≠ []) {resume : Nat → Nat}
    (hresume : d.Timely 10 resume) (start : Nat → BitVec 32) {fuel : Nat} (m : Mem) (p max : Nat)
    (ticksPerCell indexTimestamp : BitVec 32) {t : Nat} (hfuel : 2 * post.length < fuel)
    (hle : t ≤ 16 * (64 + mfmGapSync)) :
    ∃ r, ibmMfmScan d resume start fuel m p max ticksPerCell indexTimestamp t = some r ∧
      r.count = post.length ∧
      r.info.map ScanInfo.idam = (post.map fun s => s.idam.bytes).take max := by
  obtain ⟨r, hscan, hcount, hinfo, -⟩ := h.ibmMfmScan_records hne hresume start m p max
    ticksPerCell indexTimestamp hfuel hle
  refine ⟨r, hscan, hcount, ?_⟩
  rw [hinfo, List.map_take, map_idam_headers]

end Disk.Formatted

/-- **Format and scan agree.**  The stream that `ibm_mfm_write_track` hands to the write
path holds the sync mark, at whatever bit offset, at the first and the second sync
word of its `2 * nr` marks only.  `ibm_mfm_scan`, started at the index of a
revolution that holds that stream, takes exactly `nr` records, and these are the
headers that were planted, in order. -/
theorem ibm_format_scan (m : Mem) (p : Nat) {idams : List Idam} (hne : idams ≠ []) {gap3 : Nat}
    (heven : gap3 % 2 = 0) :
    (ibmMfmWriteTrack m p idams gap3).syncOff.length = 2 * idams.length ∧
    (∀ o, OccursAt mfmSync
        ((ibmMfmWriteTrack m p idams gap3).wr.bits (ibmMfmWriteTrack m p idams gap3).mem) o ↔
      ∃ off ∈ (ibmMfmWriteTrack m p idams gap3).syncOff, o = 16 * off ∨ o = 16 * off + 16) ∧
    ∀ (fs : List Byte) (n : Nat) (resume : Nat → Nat),
      (formattedDisk m p idams gap3 fs n).Timely 10 resume →
      ∀ (start : Nat → BitVec 32) (fuel : Nat) (m' : Mem) (p' max : Nat)
        (ticksPerCell indexTimestamp : BitVec 32) (t : Nat),
        2 * idams.length < fuel → t ≤ 16 * (64 + mfmGapSync) →
        ∃ r, ibmMfmScan (formattedDisk m p idams gap3 fs n) resume start fuel m' p' max
            ticksPerCell indexTimestamp t = some r ∧
          r.count = idams.length ∧ r.info.map ScanInfo.idam = (idams.map Idam.bytes).take max := by
  have hlen : (freshSectors idams).length = idams.length := List.length_map _
  refine ⟨?_, occursAt_written m p idams heven, ?_⟩
  · rw [(ibmMfmWriteTrack_spec m p idams heven).1, length_markOffs, hlen]
  · intro fs n resume hresume start fuel m' p' max ticksPerCell indexTimestamp t hfuel hle
    obtain ⟨r, hscan, hcount, hinfo⟩ :=
      (formattedDisk_formatted m p idams heven fs n).ibmMfmScan_spec
        (List.map_eq_nil_iff.not.mpr hne) hresume start m' p' max ticksPerCell indexTimestamp
        (show 2 * (freshSectors idams).length < fuel by omega) hle
    refine ⟨r, hscan, hcount.trans hlen, hinfo.trans ?_⟩
    rw [freshSectors, List.map_map]
    rfl

/-- A track with one sector, scanned by a program that takes no time between its reads. -/
theorem ibm_format_scan_one_sector :
    ∃ r, ibmMfmScan (formattedDisk (fun _ => 0) 0 [⟨0, 0, 1, 2⟩] 84 [] 0) id (fun _ => 0) 3
        (fun _ => 0) 0 8 144 0 0 = some r ∧
      r.count = 1 ∧ r.info.map ScanInfo.idam = [[0, 0, 1, 2]] :=
  (ibm_format_scan (fun _ => 0) 0 (show ([⟨0, 0, 1, 2⟩] : List Idam) ≠ [] by decide)
    (show 84 % 2 = 0 by decide)).2.2 [] 0 id (fun _ _ => ⟨Nat.le_refl _, fun _ hle hlt => absurd hlt
      (Nat.not_lt_of_le hle)⟩) (fun _ => 0) 3 (fun _ => 0) 0 8 144 0 0 (by decide) (by decide)

end FlashFloppyTestbed
