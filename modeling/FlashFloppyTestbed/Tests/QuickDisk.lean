/-
  Tests/QuickDisk.lean --- `check_mfm` of `src/quickdisk.c`, round after round.

  A Quick Disk has one track, and READY stands for the index: from one READY to the
  next is a revolution.  Each round formats the track, writes random data into one
  sector, reads it back, and scans.

  A format does not reach the end of the revolution, and a header left over behind it
  would be seen by the scan.  So the revolution is to be filler from there on; what was
  in front of that does not matter (`checkMfm_spec`), and a round leaves such a track
  for the next one (`QdRound.keeps`).
-/
import FlashFloppyTestbed.Tests.Rounds

set_option autoImplicit false

namespace FlashFloppyTestbed

open FlashFloppyTestbed.Foundation FlashFloppyTestbed.Floppy

/-! ## The code -/

/-- `idam[i]`. -/
def qdIdam (i : Nat) : Idam := ⟨2, 3, BitVec.ofNat 8 (4 + i), 3⟩

/-- The table that `check_mfm` sets up. -/
def qdIdams : List Idam := (List.range 22).map qdIdam

/-- What a round meets: the memory and buffer of the format, and the positions and times of what
comes then. -/
structure QdEnv where
  mem : Mem
  p : Nat
  rw : RwEnv

/-- The track behind the format. -/
def QdEnv.track (e : QdEnv) (d : Disk) : Disk := d.format e.mem e.p qdIdams 84

/-- `check_mfm` on the track `d`. -/
def checkMfm (e : QdEnv) (d : Disk) (seed : BitVec 32) : Option TestResult := do
  let format := ibmMfmWriteTrack e.mem e.p qdIdams 84
  let p := randBytes (128 <<< 3) seed
  let w ← ibmMfmWriteSector (e.track d) e.rw.writeResume e.rw.fuel e.rw.mem e.rw.buffers.1
    e.rw.buffers.2 p.1 (qdIdam 3) 84 e.rw.writeAt
  let q ← ibmMfmReadSector w.disk e.rw.readResume e.rw.fuel e.rw.mem e.rw.buffers.1
    e.rw.buffers.2 (qdIdam 3) e.rw.readAt
  let scan ← ibmMfmScan w.disk e.rw.scanResume e.rw.start e.rw.fuel e.rw.mem e.rw.buffers.1 32
    e.rw.ticksPerCell e.rw.indexTimestamp e.rw.scanAt
  let check := checkIbmIdams qdIdams (seenIdam scan.info e.rw.junk) scan.count
  some
    { disk := w.disk
      seed := p.2
      warned := decide (format.reported ≠ []) || w.warned || q.warned || decide (p.1 ≠ q.data) ||
        decide (scan.gap3.toInt < 0) || check.warned }

/-! ## One round -/

/-- The gap comes from the first two records: how many there is room for does not matter. -/
theorem scanGap3_take {ticksPerCell : BitVec 32} {i k k' : Nat} (hk : 2 ≤ k) (hk' : 2 ≤ k')
    (l : List ScanInfo) :
    scanGap3 ticksPerCell k i (l.take k) = scanGap3 ticksPerCell k' i (l.take k') := by
  obtain ⟨k, rfl⟩ := Nat.exists_eq_add_of_le hk
  obtain ⟨k', rfl⟩ := Nat.exists_eq_add_of_le hk'
  obtain _ | ⟨a, _ | ⟨b, rest⟩⟩ := l
  · rw [List.take_nil, List.take_nil]
    rfl
  · rw [Nat.add_comm, Nat.add_comm 2 k']
    rfl
  · rw [Nat.add_comm, Nat.add_comm 2 k', List.take_succ_cons, List.take_succ_cons,
      List.take_succ_cons, List.take_succ_cons, scanGap3, scanGap3]
    simp

/-- The sectors that a round leaves. -/
def qdSectors (data : List Byte) : List Sector :=
  storedSectors qdIdams (Function.update (fun i => List.replicate i.size 0xe2) (qdIdam 3) data)

theorem qdIdams_nodup : qdIdams.Nodup := by decide

theorem map_idam_qdSectors (data : List Byte) : (qdSectors data).map Sector.idam = qdIdams := by
  rw [qdSectors, storedSectors, List.map_map]
  exact List.map_id _

/-- **One round** is silent, and leaves the random data in its sector and the fill byte
in the others. -/
theorem checkMfm_spec {e : QdEnv} {d : Disk} {fs : List Byte}
    (hfilled : d.FilledFrom (trackBytes qdIdams 84) fs)
    (hgood : e.rw.Good (e.track d) 84 qdIdams) (seed : BitVec 32) :
    ∃ r, checkMfm e d seed = some r ∧ r.warned = false ∧
      r.seed = (randBytes (128 <<< 3) seed).2 ∧
      r.disk.Formatted 84 (qdSectors (randBytes (128 <<< 3) seed).1) fs := by
  have hlen : (randBytes (128 <<< 3) seed).1.length = (qdIdam 3).size := by
    rw [length_randBytes]
    rfl
  rw [checkMfm]
  generalize randBytes (128 <<< 3) seed = p at hlen ⊢
  have hformatted : (e.track d).Formatted 84 (storedSectors qdIdams fun i =>
      List.replicate i.size 0xe2) fs :=
    hfilled.format (by decide) e.mem e.p
  obtain ⟨pre, post, hsecs, hother, hnew⟩ := storedSectors_split
    (fun i => List.replicate i.size 0xe2) qdIdams_nodup (show qdIdam 3 ∈ qdIdams by decide)
  rw [hsecs] at hformatted
  -- the write, and the read behind it
  obtain ⟨w, hwrite, hwarned, hwritten⟩ := hformatted.ibmMfmWriteSector_spec hother hgood.write
    hgood.fuel e.rw.mem e.rw.buffers.1 e.rw.buffers.2 hlen (g := 84) (by decide) e.rw.writeAt
  have hsize := size_of_write hwrite
  have hroom : w.disk.size ≤ e.rw.fuel := hsize.trans_le hgood.fuel
  have hread := hwritten.ibmMfmReadSector_spec (s := ⟨qdIdam 3, p.1⟩) hother
    (hformatted.timely_congr hwritten (by simp) hsize hgood.read) hroom e.rw.mem
    e.rw.buffers.1 e.rw.buffers.2 e.rw.readAt
  have hscanTimely := hformatted.timely_congr hwritten (by simp) hsize hgood.scan
  -- the scan, and the headers
  rw [← hnew p.1, ← qdSectors] at hwritten
  have hidams := map_idam_qdSectors p.1
  have hcount : (qdSectors p.1).length = qdIdams.length := by
    rw [← hidams, List.length_map]
  have hne : qdSectors p.1 ≠ [] := by
    intro hnil
    rw [hnil] at hcount
    exact absurd hcount (by decide)
  have hfuel : 2 * (qdSectors p.1).length < e.rw.fuel := by
    have hge := hwritten.size_ge
    have hlong := length_le_sectorsLength 84 (qdSectors p.1)
    rw [length_trackItems] at hge
    omega
  obtain ⟨scan, hscan, hseen, hinfo, hgap⟩ := Disk.Formatted.ibmMfmScan_records hwritten hne
    hscanTimely e.rw.start e.rw.mem e.rw.buffers.1 32 e.rw.ticksPerCell e.rw.indexTimestamp hfuel
    hgood.scanAt
  obtain ⟨g, hg, hsmall, -⟩ := RwEnv.Clocked.gap (n := scan.count) hwritten hne
    (by rw [hidams]; exact hgood.clocked) hseen
  rw [scanGap3_take (by decide) (show 2 ≤ 32 by decide), ← hinfo, ← hgap] at hg
  have hpositive : ¬ scan.gap3.toInt < 0 := by
    have hnat : scan.gap3.toNat = g := by
      rw [hg, BitVec.toNat_ofNat, Nat.mod_eq_of_lt (by omega)]
    rw [BitVec.toInt_eq_toNat_of_lt (by omega)]
    omega
  have hheaders : scan.info.map ScanInfo.idam = qdIdams.map Idam.bytes := by
    rw [hinfo, List.map_take, Disk.Formatted.map_idam_headers, List.take_of_length_le
      (by rw [List.length_map, hcount]; decide), ← hidams, List.map_map]
    rfl
  have hcheck := checkIbmIdams_same e.rw.junk hheaders
  rw [← hcount, ← hseen] at hcheck
  refine ⟨⟨w.disk, p.2, false⟩, ?_, rfl, rfl, hwritten⟩
  simp only [Option.bind_eq_bind, Option.bind_some, hwrite, hread, hscan, hwarned,
    hpositive, hcheck, ibmMfmWriteTrack_reported, ne_eq, not_true_eq_false, decide_false,
    Bool.or_false]

/-! ## The rounds -/

/-- What the rounds leave behind: the seed, whether a `WARN_ON` has fired, and the track. -/
structure QdState where
  seed : BitVec 32
  warned : Bool
  track : Disk

/-- A round of `main`. -/
inductive QdRound : QdState → QdState → Prop where
  | round {e : QdEnv} {st : QdState} {r : TestResult} :
      e.rw.Good (e.track st.track) 84 qdIdams → checkMfm e st.track st.seed = some r →
      QdRound st ⟨r.seed, st.warned || r.warned, r.disk⟩

/-- What the rounds keep. -/
structure QdState.Kept (st : QdState) (fs : List Byte) : Prop where
  silent : st.warned = false
  filled : st.track.FilledFrom (trackBytes qdIdams 84) fs

theorem QdRound.keeps {fs : List Byte} {st st' : QdState} (h : QdRound st st')
    (hkept : st.Kept fs) : st'.Kept fs := by
  cases h with
  | @round e _ r hgood hrun =>
    obtain ⟨r', hrun', hsilent, -, hformatted⟩ := checkMfm_spec hkept.filled hgood st.seed
    obtain rfl : r = r' := Option.some.inj (hrun.symm.trans hrun')
    have hfilled := hformatted.filledFrom (by decide)
    rw [map_idam_qdSectors] at hfilled
    exact ⟨by rw [hkept.silent, hsilent]; rfl, hfilled⟩

/-- **The Quick Disk test never cries wolf.**  Whatever was on the track as far as a format
reaches, with filler from there on, and however many rounds have been made: no `WARN_ON` has
fired; the next round ends, is silent, and leaves a track on which the fourth sector reads as
its random data and every other sector as the fill byte. -/
theorem quickdisk_silent {fs : List Byte} {st st' : QdState} (hstart : st.warned = false)
    (hfilled : st.track.FilledFrom (trackBytes qdIdams 84) fs)
    (hrun : Relation.ReflTransGen QdRound st st') :
    st'.warned = false ∧ ∀ e : QdEnv, e.rw.Good (e.track st'.track) 84 qdIdams →
      ∃ r, checkMfm e st'.track st'.seed = some r ∧ r.warned = false ∧
        ∀ i ∈ qdIdams, ∀ resume fuel m p₁ p₂ t, r.disk.Timely 10 resume → r.disk.size ≤ fuel →
          ibmMfmReadSector r.disk resume fuel m p₁ p₂ i t =
            some ⟨if i = qdIdam 3 then (randBytes (128 <<< 3) st'.seed).1
              else List.replicate i.size 0xe2, false⟩ := by
  have hkept := run_invariant (P := fun st => QdState.Kept st fs) (fun _ _ => QdRound.keeps) hrun
    ⟨hstart, hfilled⟩
  refine ⟨hkept.silent, fun e hgood => ?_⟩
  obtain ⟨r, hr, hsilent, -, hformatted⟩ := checkMfm_spec hkept.filled hgood st'.seed
  refine ⟨r, hr, hsilent, fun i hi resume fuel m p₁ p₂ t hresume hfuel => ?_⟩
  obtain ⟨pre, post, hsecs, hother, -⟩ := storedSectors_split
    (Function.update (fun i => List.replicate i.size 0xe2) (qdIdam 3)
      (randBytes (128 <<< 3) st'.seed).1) qdIdams_nodup hi
  rw [qdSectors, hsecs] at hformatted
  rw [hformatted.ibmMfmReadSector_spec hother hresume hfuel, Function.update_apply]

theorem promptRw_clocked_qd (d : Disk) : (promptRw d).Clocked 84 qdIdams := by
  have hsize : sectorBytes 84 (qdIdam 0) = 1170 := by decide
  show |((BitVec.ofNat 32 (18 * (16 * (76 + sectorBytes 84 (qdIdam 0)))) -
      BitVec.ofNat 32 (18 * (16 * 76))).toNat : Int) -
        (sectorBytes 84 (qdIdam 0) * (2 * 144) : Nat)| < 144 ∧
    sectorBytes 84 (qdIdam 0) * (2 * 144) + 2 * 144 < 2 ^ 32 ∧ 0 < 144
  rw [hsize]
  decide

/-- A round that takes no time between its reads. -/
def promptQd (d : Disk) : QdEnv := ⟨fun _ => 0, 0, promptRw (d.format (fun _ => 0) 0 qdIdams 84)⟩

/-- A round on a track of set bitcells, just long enough for the format, and a second one. -/
theorem quickdisk_silent_twice :
    ∃ st, Relation.ReflTransGen QdRound ⟨7, false, ⟨fun _ => true, 16 * trackBytes qdIdams 84⟩⟩ st ∧
      st.warned = false ∧ ∃ (e : QdEnv) (r : TestResult), checkMfm e st.track st.seed = some r ∧
        r.warned = false := by
  have hfilled : (⟨fun _ => true, 16 * trackBytes qdIdams 84⟩ : Disk).FilledFrom
      (trackBytes qdIdams 84) [] :=
    ⟨Nat.le_refl _, Nat.le_refl _, fun r hge hr => absurd hr (Nat.not_lt_of_le hge)⟩
  have hgood : ∀ d : Disk, (promptQd d).rw.Good ((promptQd d).track d) 84 qdIdams := fun d =>
    promptRw_good (promptRw_clocked_qd _)
  obtain ⟨-, hfirst⟩ := @quickdisk_silent _ ⟨7, false, _⟩ _ rfl hfilled .refl
  obtain ⟨r, hr, -⟩ := hfirst _ (hgood _)
  have hone := Relation.ReflTransGen.single (QdRound.round (hgood _) hr)
  obtain ⟨hsilent, hsecond⟩ := quickdisk_silent rfl hfilled hone
  obtain ⟨r', hr', hwarned, -⟩ := hsecond _ (hgood _)
  exact ⟨_, hone, hsilent, _, r', hr', hwarned⟩

end FlashFloppyTestbed
