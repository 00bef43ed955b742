/-
  Disk/IdamCheck.lean --- what `check_ibm_idams` of `src/main.c` and
  `src/quickdisk.c` does with the result of a scan.

  The scans store the first `max` headers and count all of them, and the count is what
  `check_ibm_idams` goes by: where it finds a mismatch it prints that many entries.  The
  entries behind the caller's array are read exactly when the revolution has more valid
  headers than the array has entries.  Where it has fewer than two, `ibm_fm_scan` leaves
  `*p_gap3` alone, for which `ibm_mfm_scan` makes one up (`ibm_scan_defined_iff`).
-/
import FlashFloppyTestbed.Foundation.Visits
import FlashFloppyTestbed.Disk.FmAccept
import FlashFloppyTestbed.Disk.Scan

set_option autoImplicit false

namespace FlashFloppyTestbed

open FlashFloppyTestbed.Foundation FlashFloppyTestbed.Floppy

/-- What `check_ibm_idams` does: the indices at which it reads `seen[]`, in order, and
whether its `WARN_ON` fires. -/
structure IdamCheck where
  read : List Nat
  warned : Bool

/-- The loop that compares, from index `i` on. -/
def compareIdams (seen : Nat → List Byte) : List Idam → Nat → IdamCheck
  | [], _ => ⟨[], false⟩
  | e :: expected, i =>
      if e.bytes ≠ seen i then ⟨[i], true⟩
      else
        let c := compareIdams seen expected (i + 1)
        ⟨i :: c.read, c.warned⟩

/-- `check_ibm_idams(expected, exp_nr, seen, seen_nr)`. -/
def checkIbmIdams (expected : List Idam) (seen : Nat → List Byte) (seenNr : Nat) : IdamCheck :=
  let fail (c : IdamCheck) : IdamCheck := ⟨c.read ++ List.range seenNr, true⟩
  if expected.length ≠ seenNr then fail ⟨[], true⟩
  else
    let c := compareIdams seen expected 0
    if c.warned then fail c else c

/-- `info[i].idam`, where `junk` is what memory holds in the entries that the scan has not
filled and behind the array. -/
def seenIdam (info : List ScanInfo) (junk : Nat → List Byte) (i : Nat) : List Byte :=
  (info[i]?.map ScanInfo.idam).getD (junk i)

/-! ## Valid headers -/

namespace Disk

/-- The data bytes of the `n` words from position `o` on. -/
def dataBytes (d : Disk) (o n : Nat) : List Byte :=
  (List.range n).map fun k => mfmtobin (pushBits 0 (d.stream (o + 16 * k) 16))

/-- A valid MFM header follows, with its mark. -/
def MfmIdam (d : Disk) (o : Nat) : Prop :=
  (d.dataBytes o 10).take 4 = mfmIdamMark ∧ crc16Ccitt (d.dataBytes o 10) 0xffff = 0

/-- A valid FM header follows, behind a gap byte. -/
def FmIdam (d : Disk) (o : Nat) : Prop :=
  ((d.dataBytes o 8).drop 1).take 1 = [0xfe] ∧ crc16Ccitt ((d.dataBytes o 8).drop 1) 0xffff = 0

/-- The valid MFM headers that a program which reads ten words at every mark it meets gets
whole before the next index pulse, by the positions of their marks. -/
def mfmIdams (d : Disk) (resume : Nat → Nat) (t : Nat) : Set Nat :=
  {o | Visits d.findSync (fun o => resume (o + 160)) t o ∧ o < d.size - 160 ∧ d.MfmIdam o}

/-- The first bitcell that a read with `SYNC_fm` delivers. -/
def findFm (d : Disk) (t : Nat) : Option Nat := (d.findFmSync t).map (· + 1)

/-- The valid FM headers that a program which reads eight words at every mark it meets gets
whole before the next index pulse. -/
def fmIdams (d : Disk) (resume : Nat → Nat) (t : Nat) : Set Nat :=
  {o | Visits d.findFm (fun o => resume (o + 128)) t o ∧ o < d.size - 128 ∧ d.FmIdam o}

theorem flatMap_stream (d : Disk) (o : Nat) : ∀ n,
    ((List.range n).map fun k => pushBits (0 : BitVec 16) (d.stream (o + 16 * k) 16)).flatMap
      bitsOf = d.stream o (16 * n)
  | 0 => rfl
  | n + 1 => by
    have hlast : bitsOf (pushBits (0 : BitVec 16) (d.stream (o + 16 * n) 16)) =
        d.stream (o + 16 * n) 16 := by
      rw [bitsOf_pushBits _ _ (Nat.le_of_eq (length_stream _ _ _).symm), length_stream,
        Nat.sub_self, List.drop_zero]
    rw [List.range_succ, List.map_append, List.flatMap_append, flatMap_stream d o n,
      Nat.mul_succ, stream_add, List.map_singleton, List.flatMap_singleton, hlast]

/-- What `mfm_to_bin` makes of a buffer that a read has filled. -/
theorem mfmToBin_stBits (d : Disk) (m : Mem) (p o n : Nat) :
    (mfmToBin (m.stBits p (d.stream o (16 * n))) p n).bytes p n = d.dataBytes o n := by
  have hwords := Mem.words_stBits m p
    ((List.range n).map fun k => pushBits (0 : BitVec 16) (d.stream (o + 16 * k) 16))
  rw [flatMap_stream, List.length_map, List.length_range] at hwords
  rw [mfmToBin_bytes, hwords, List.map_map]
  rfl

theorem size_pos_of_findSync {d : Disk} {t o : Nat} (h : d.findSync t = some o) : 0 < d.size := by
  rw [Nat.pos_iff_ne_zero]
  intro hz
  rw [findSync, hz] at h
  cases h

theorem size_pos_of_findFm {d : Disk} {t o : Nat} (h : d.findFm t = some o) : 0 < d.size := by
  rw [Nat.pos_iff_ne_zero]
  intro hz
  rw [findFm, findFmSync, hz] at h
  cases h

theorem exists_findFm {d : Disk} {o : Nat} (hsync : d.FmSyncAt o) (hsize : 0 < d.size) (t : Nat) :
    ∃ o', d.findFm t = some o' := by
  obtain ⟨o', hfind⟩ := exists_find?_ring d.fmSyncAt_mod hsync hsize t
  exact ⟨o' + 1, Option.map_eq_some_iff.mpr ⟨o', hfind, rfl⟩⟩

theorem le_of_findFm {d : Disk} {t o : Nat} (h : d.findFm t = some o) : t ≤ o := by
  obtain ⟨o', ho', rfl⟩ := Option.map_eq_some_iff.mp h
  exact Nat.le_succ_of_le (of_find?_ring ho').2.1

end Disk

/-! ## The scans count the valid headers -/

section Scan

variable {d : Disk} {resume : Nat → Nat} {start : Nat → BitVec 32} {p max : Nat}
  {indexTimestamp : BitVec 32}

/-- **The loop of `ibm_mfm_scan`** counts the valid headers it gets whole. -/
theorem ibmMfmScanLoop_counts (hresume : ∀ e, e ≤ resume e) :
    CountLoop d.findSync (fun o => resume (o + 160)) d.MfmIdam (d.size - 160) max
      (ibmMfmScanLoop d resume start p max indexTimestamp) := by
  have hread : ∀ {t o : Nat} (m : Mem), d.findSync t = some o →
      d.floppyRead m p 10 t = some (m.stBits p (d.stream o (16 * 10)), o) := fun _ hfind =>
    Option.map_eq_some_iff.mpr ⟨_, hfind, rfl⟩
  have hvalid : ∀ (m : Mem) (o : Nat), d.MfmIdam o ↔
      (mfmToBin (m.stBits p (d.stream o (16 * 10))) p 10).bytes p 4 = mfmIdamMark ∧
        crc16Ccitt ((mfmToBin (m.stBits p (d.stream o (16 * 10))) p 10).bytes p 10) 0xffff =
          0 := by
    intro m o
    have hbytes := d.mfmToBin_stBits m p o 10
    have hmark := Mem.bytes_sub (mfmToBin (m.stBits p (d.stream o (16 * 10))) p 10) p 10 0 4
      (by decide)
    rw [Nat.add_zero, hbytes, List.drop_zero] at hmark
    rw [Disk.MfmIdam, hmark, hbytes]
  refine ⟨Disk.le_of_findSync, fun o => ?_, fun _ _ _ _ => rfl, fun h => ?_,
    fun fuel m i info hfind hin hidam => ?_, fun fuel m i info hfind hin hidam => ?_,
    fun fuel m i info hfind hlast => ?_⟩
  · have hle := hresume (o + 160)
    show o < resume (o + 160)
    omega
  · rw [ibmMfmScanLoop] at h
    obtain ⟨_, h, -⟩ := Option.bind_eq_some_iff.mp h
    obtain ⟨o, hfind, -⟩ := Option.map_eq_some_iff.mp h
    exact ⟨o, hfind⟩
  · obtain ⟨hmark, hcrc⟩ := (hvalid m _).mp hidam
    exact ⟨_, _, Disk.Formatted.scan_header (hread m hfind) (by omega) hmark hcrc⟩
  · exact ⟨_, Disk.Formatted.scan_other (hread m hfind) (by omega)
      (not_and_or.mp ((hvalid m _).not.mp hidam))⟩
  · exact Disk.Formatted.scan_end (hread m hfind) (Disk.size_pos_of_findSync hfind) (by omega)

section Fm

variable {fuel t o i : Nat} {m m' : Mem} {info : List ScanInfo}

/-- One pass of the loop of `ibm_fm_scan` that meets a header. -/
theorem fmScan_header (hread : d.floppyReadFm m p 8 t = some (m', o)) (hin : o + 128 < d.size)
    (hmark : mfmToBin m' p 8 (p + 1) = 0xfe)
    (hcrc : crc16Ccitt ((mfmToBin m' p 8).bytes (p + 1) 7) 0xffff = 0) :
    ibmFmScanLoop d resume start p max indexTimestamp (fuel + 1) t m i info =
      ibmFmScanLoop d resume start p max indexTimestamp fuel (resume (o + 128))
        (mfmToBin m' p 8) (i + 1)
        (if i < max then
          info ++ [⟨(mfmToBin m' p 8).bytes (p + 2) 4, start o - indexTimestamp⟩] else info) := by
  have hcount : ¬ 1 + d.indexCount 0 (o + 128) ≠ 1 := by
    rw [Disk.indexCount, Nat.div_eq_of_lt hin]
    simp
  have hheader : ¬ (mfmToBin m' p 8 (p + 1) ≠ 0xfe ∨
      crc16Ccitt ((mfmToBin m' p 8).bytes (p + 1) 7) 0xffff ≠ 0) := by
    rw [hmark, hcrc]
    simp
  rw [ibmFmScanLoop, hread]
  exact (if_neg hcount).trans (if_neg hheader)

/-- One pass that meets something else. -/
theorem fmScan_other (hread : d.floppyReadFm m p 8 t = some (m', o)) (hin : o + 128 < d.size)
    (hother : mfmToBin m' p 8 (p + 1) ≠ 0xfe ∨
      crc16Ccitt ((mfmToBin m' p 8).bytes (p + 1) 7) 0xffff ≠ 0) :
    ibmFmScanLoop d resume start p max indexTimestamp (fuel + 1) t m i info =
      ibmFmScanLoop d resume start p max indexTimestamp fuel (resume (o + 128))
        (mfmToBin m' p 8) i info := by
  have hcount : ¬ 1 + d.indexCount 0 (o + 128) ≠ 1 := by
    rw [Disk.indexCount, Nat.div_eq_of_lt hin]
    simp
  rw [ibmFmScanLoop, hread]
  exact (if_neg hcount).trans (if_pos hother)

/-- The pass that ends behind the next index pulse. -/
theorem fmScan_end (hread : d.floppyReadFm m p 8 t = some (m', o)) (hpos : 0 < d.size)
    (hin : d.size ≤ o + 128) :
    ibmFmScanLoop d resume start p max indexTimestamp (fuel + 1) t m i info = some (i, info) := by
  have hcount : 1 + d.indexCount 0 (o + 128) ≠ 1 := by
    have hge : 1 ≤ (o + 128) / d.size := (Nat.one_le_div_iff hpos).mpr hin
    rw [Disk.indexCount, Nat.zero_div]
    omega
  rw [ibmFmScanLoop, hread]
  exact if_pos hcount

theorem floppyReadFm_of_findFm (m : Mem) (p n : Nat) (h : d.findFm t = some o) :
    d.floppyReadFm m p n t = some (m.stBits p (d.stream o (16 * n)), o) := by
  obtain ⟨o', ho', rfl⟩ := Option.map_eq_some_iff.mp h
  exact Option.map_eq_some_iff.mpr ⟨o', ho', rfl⟩

end Fm

/-- **The loop of `ibm_fm_scan`** counts the valid headers it gets whole. -/
theorem ibmFmScanLoop_counts (hresume : ∀ e, e ≤ resume e) :
    CountLoop d.findFm (fun o => resume (o + 128)) d.FmIdam (d.size - 128) max
      (ibmFmScanLoop d resume start p max indexTimestamp) := by
  have hvalid : ∀ (m : Mem) (o : Nat), d.FmIdam o ↔
      mfmToBin (m.stBits p (d.stream o (16 * 8))) p 8 (p + 1) = 0xfe ∧
        crc16Ccitt ((mfmToBin (m.stBits p (d.stream o (16 * 8))) p 8).bytes (p + 1) 7) 0xffff =
          0 := by
    intro m o
    obtain ⟨b, hb⟩ : ∃ b, b = mfmToBin (m.stBits p (d.stream o (16 * 8))) p 8 := ⟨_, rfl⟩
    have hbytes : d.dataBytes o 8 = b p :: b.bytes (p + 1) 7 := by
      rw [← d.mfmToBin_stBits m p o 8, ← hb]
      exact Mem.bytes_succ b p 7
    have hmark : (b.bytes (p + 1) 7).take 1 = [b (p + 1)] := rfl
    rw [← hb, Disk.FmIdam, hbytes, List.drop_succ_cons, List.drop_zero, hmark, List.singleton_inj]
  refine ⟨Disk.le_of_findFm, fun o => ?_, fun _ _ _ _ => rfl, fun h => ?_,
    fun fuel m i info hfind hin hidam => ?_, fun fuel m i info hfind hin hidam => ?_,
    fun fuel m i info hfind hlast => ?_⟩
  · have hle := hresume (o + 128)
    show o < resume (o + 128)
    omega
  · rw [ibmFmScanLoop] at h
    obtain ⟨_, h, -⟩ := Option.bind_eq_some_iff.mp h
    obtain ⟨o, h, -⟩ := Option.map_eq_some_iff.mp h
    exact ⟨o + 1, by rw [Disk.findFm, h]; rfl⟩
  · obtain ⟨hmark, hcrc⟩ := (hvalid m _).mp hidam
    exact ⟨_, _, fmScan_header (floppyReadFm_of_findFm m p 8 hfind) (by omega) hmark hcrc⟩
  · exact ⟨_, fmScan_other (floppyReadFm_of_findFm m p 8 hfind) (by omega)
      (not_and_or.mp ((hvalid m _).not.mp hidam))⟩
  · exact fmScan_end (floppyReadFm_of_findFm m p 8 hfind) (Disk.size_pos_of_findFm hfind)
      (by omega)

end Scan

/-! ## What is read -/

/-- The comparison reads no entry that is not expected, and all of these if they match. -/
theorem compareIdams_read (seen : Nat → List Byte) : ∀ (expected : List Idam) (i j : Nat),
    (j ∈ (compareIdams seen expected i).read → i ≤ j ∧ j < i + expected.length) ∧
      ((compareIdams seen expected i).warned = false → i ≤ j → j < i + expected.length →
        j ∈ (compareIdams seen expected i).read)
  | [], i, j => by
    refine ⟨fun h => absurd h List.not_mem_nil, fun _ hle hlt => ?_⟩
    rw [List.length_nil] at hlt
    omega
  | e :: expected, i, j => by
    obtain ⟨hsound, hall⟩ := compareIdams_read seen expected (i + 1) j
    rw [compareIdams, List.length_cons]
    split
    · refine ⟨fun h => ?_, nofun⟩
      rw [List.mem_singleton.mp h]
      omega
    · refine ⟨fun h => ?_, fun hwarned hle hlt => ?_⟩
      · rcases List.mem_cons.mp h with rfl | h
        · omega
        · have hin := hsound h
          omega
      · rcases Nat.eq_or_lt_of_le hle with rfl | hlt'
        · exact List.mem_cons_self
        · exact List.mem_cons_of_mem _ (hall hwarned hlt' (by omega))

/-- Whatever it finds, `check_ibm_idams` reads the entries the scan has counted. -/
theorem mem_read_checkIbmIdams (expected : List Idam) (seen : Nat → List Byte) (seenNr i : Nat) :
    i ∈ (checkIbmIdams expected seen seenNr).read ↔ i < seenNr := by
  obtain ⟨hsound, hall⟩ := compareIdams_read seen expected 0 i
  rw [Nat.zero_add] at hsound hall
  rw [checkIbmIdams]
  split
  · exact List.mem_range
  · rename_i hlen
    rw [not_not.mp hlen] at hsound hall
    dsimp only
    split
    · refine ⟨fun h => ?_, fun h => List.mem_append_right _ (List.mem_range.mpr h)⟩
      rcases List.mem_append.mp h with h | h
      · exact (hsound h).2
      · exact List.mem_range.mp h
    · rename_i hwarned
      exact ⟨fun h => (hsound h).2, fun h => hall (Bool.eq_false_iff.mpr hwarned) (Nat.zero_le i) h⟩

/-- All of them are in the array, and filled, exactly if there are not too many. -/
theorem reads_filled_iff (expected : List Idam) (seen : Nat → List Byte) {count max len : Nat}
    (hlen : len = min count max) :
    (∀ i ∈ (checkIbmIdams expected seen count).read, i < max ∧ i < len) ↔ count ≤ max := by
  simp only [mem_read_checkIbmIdams]
  refine ⟨fun h => ?_, fun h i hi => by omega⟩
  by_contra hlt
  have hin := h max (by omega)
  omega

/-- The value that `ibm_fm_scan` assigns. -/
theorem fmScanGap3_ne_none_iff (ticksPerCell : BitVec 32) {max i : Nat} {info : List ScanInfo}
    (hlen : info.length = min i max) :
    fmScanGap3 ticksPerCell max i info ≠ none ↔ 2 ≤ i ∧ 2 ≤ max := by
  unfold fmScanGap3
  split
  · split
    · rename_i h
      exact iff_of_true (Option.some_ne_none _) h
    · rename_i h
      exact iff_of_false (fun hne => hne rfl) h
  · rename_i hshort
    refine iff_of_false (fun hne => hne rfl) fun h => ?_
    obtain _ | ⟨i₀, _ | ⟨i₁, rest⟩⟩ := info
    · rw [List.length_nil] at hlen
      omega
    · rw [List.length_singleton] at hlen
      omega
    · exact hshort i₀ i₁ rest rfl

/-- **What is read of a scan's result is defined** exactly if the revolution has no more
valid headers than the caller's array has entries and, for `*p_gap3` of the FM scan, at
least two.  The scans return, if there is a sync mark at all. -/
theorem ibm_scan_defined_iff (d : Disk) {resume : Nat → Nat} (hresume : ∀ e, e ≤ resume e)
    (start : Nat → BitVec 32) (fuel : Nat) (m : Mem) (p max : Nat)
    (ticksPerCell indexTimestamp : BitVec 32) (t : Nat) (expected : List Idam)
    (junk : Nat → List Byte) :
    (∀ r, ibmMfmScan d resume start fuel m p max ticksPerCell indexTimestamp t = some r →
      ((∀ i ∈ (checkIbmIdams expected (seenIdam r.info junk) r.count).read,
          i < max ∧ i < r.info.length) ↔ (d.mfmIdams resume t).ncard ≤ max)) ∧
    (∀ r, ibmFmScan d resume start fuel m p max ticksPerCell indexTimestamp t = some r →
      ((∀ i ∈ (checkIbmIdams expected (seenIdam r.info junk) r.count).read,
          i < max ∧ i < r.info.length) ∧ r.gap3 ≠ none ↔
        2 ≤ (d.fmIdams resume t).ncard ∧ (d.fmIdams resume t).ncard ≤ max)) ∧
    (0 < d.size → d.size < fuel →
      (∀ o, d.SyncAt o →
        ∃ r, ibmMfmScan d resume start fuel m p max ticksPerCell indexTimestamp t = some r) ∧
      (∀ o, d.FmSyncAt o →
        ∃ r, ibmFmScan d resume start fuel m p max ticksPerCell indexTimestamp t = some r)) := by
  have hmfm : CountLoop d.findSync _ d.MfmIdam (d.size - 160) max
      (ibmMfmScanLoop d resume start p max indexTimestamp) := ibmMfmScanLoop_counts hresume
  have hfm : CountLoop d.findFm _ d.FmIdam (d.size - 128) max
      (ibmFmScanLoop d resume start p max indexTimestamp) := ibmFmScanLoop_counts hresume
  refine ⟨fun r hr => ?_, fun r hr => ?_, fun hsize hfuel => ?_⟩
  · obtain ⟨s, hloop, rfl⟩ := Option.map_eq_some_iff.mp hr
    obtain ⟨hcount, hlen⟩ := hmfm.count fuel t m 0 [] s (Nat.zero_min _).symm hloop
    rw [reads_filled_iff expected _ hlen, hcount, Nat.zero_add]
    rfl
  · obtain ⟨s, hloop, rfl⟩ := Option.map_eq_some_iff.mp hr
    obtain ⟨hcount, hlen⟩ := hfm.count fuel t m 0 [] s (Nat.zero_min _).symm hloop
    rw [reads_filled_iff expected _ hlen, fmScanGap3_ne_none_iff ticksPerCell hlen, hcount,
      Nat.zero_add]
    show (d.fmIdams resume t).ncard ≤ max ∧ 2 ≤ (d.fmIdams resume t).ncard ∧ 2 ≤ max ↔ _
    omega
  · obtain ⟨fuel, rfl⟩ : ∃ f, fuel = f + 1 := ⟨fuel - 1, by omega⟩
    refine ⟨fun o hsync => ?_, fun o hsync => ?_⟩
    · obtain ⟨s, hloop⟩ := hmfm.returns (fun t => exists_find?_ring d.syncAt_mod hsync hsize t)
        fuel t m 0 [] (by omega)
      exact ⟨_, Option.map_eq_some_iff.mpr ⟨s, hloop, rfl⟩⟩
    · obtain ⟨s, hloop⟩ := hfm.returns (fun t => Disk.exists_findFm hsync hsize t)
        fuel t m 0 [] (by omega)
      exact ⟨_, Option.map_eq_some_iff.mpr ⟨s, hloop, rfl⟩⟩

/-- An FM revolution with one header. -/
def oneHeaderDisk : Disk := fmDamDisk ⟨0, 0, 1, 0⟩ []

/-- Its scan, by a program that takes no time between its reads. -/
theorem ibm_scan_defined_iff_one_header :
    ∃ r, ibmFmScan oneHeaderDisk id (fun _ => 0) 289 (fun _ => 0) 0 64 144 0 0 = some r ∧
      ((∀ i ∈ (checkIbmIdams [] (seenIdam r.info fun _ => []) r.count).read,
          i < 64 ∧ i < r.info.length) ∧ r.gap3 ≠ none ↔
        2 ≤ (oneHeaderDisk.fmIdams id 0).ncard ∧ (oneHeaderDisk.fmIdams id 0).ncard ≤ 64) := by
  have hsize : oneHeaderDisk.size = 288 := length_fmDamDisk ⟨0, 0, 1, 0⟩ []
  have hsync : oneHeaderDisk.FmSyncAt 15 :=
    (of_find?_ring (findFmSync_idam ⟨0, 0, 1, 0⟩ [])).1
  obtain ⟨-, hdefined, hreturns⟩ := @ibm_scan_defined_iff oneHeaderDisk id
    (fun _ => Nat.le_refl _) (fun _ => 0) 289 (fun _ => 0) 0 64 144 0 0 [] (fun _ => [])
  obtain ⟨r, hr⟩ := (hreturns (by rw [hsize]; decide) (by rw [hsize]; decide)).2 15 hsync
  exact ⟨r, hr, hdefined r hr⟩

/-- An FM revolution with one header leaves `*p_gap3` alone, and an MFM one with 65 makes
the check read behind an array of 64. -/
theorem ibm_scan_undefined :
    (ibmFmScan oneHeaderDisk id (fun _ => 0) 4 (fun _ => 0) 0 64 144 0 0).map FmScan.gap3 =
        some none ∧
      ∃ r, ibmMfmScan (formattedDisk (fun _ => 0) 0 (List.replicate 65 ⟨0, 0, 1, 0⟩) 0 [] 0) id
          (fun _ => 0) 131 (fun _ => 0) 0 64 144 0 0 = some r ∧
        64 ∈ (checkIbmIdams [⟨0, 0, 1, 0⟩] (seenIdam r.info fun _ => []) r.count).read ∧
        r.info.length = 64 := by
  refine ⟨by decide +kernel, ?_⟩
  have hlen : (freshSectors (List.replicate 65 ⟨0, 0, 1, 0⟩)).length = 65 := by
    rw [freshSectors, List.length_map, List.length_replicate]
  have htimely : (formattedDisk (fun _ => 0) 0 (List.replicate 65 ⟨0, 0, 1, 0⟩) 0 [] 0).Timely 10
      id := fun _ _ =>
    ⟨Nat.le_refl _, fun _ hle hlt => absurd hlt (Nat.not_lt_of_le hle)⟩
  obtain ⟨r, hr, hcount, hinfo⟩ :=
    (formattedDisk_formatted (fun _ => 0) 0 (List.replicate 65 ⟨0, 0, 1, 0⟩)
      (show 0 % 2 = 0 from rfl) [] 0).ibmMfmScan_spec
      (by rw [← List.length_pos_iff, hlen]; decide) htimely (fun _ => 0) (fun _ => 0) 0 64 144 0
      (show 2 * _ < 131 by rw [hlen]; decide)
      (show 0 ≤ 16 * (64 + mfmGapSync) by decide)
  refine ⟨r, hr, ?_, ?_⟩
  · rw [mem_read_checkIbmIdams, hcount, hlen]
    decide
  · have hlen' := congrArg List.length hinfo
    rwa [List.length_map, List.length_take, List.length_map, hlen] at hlen'

end FlashFloppyTestbed
