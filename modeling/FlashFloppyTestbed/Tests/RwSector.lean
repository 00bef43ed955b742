/-
  Tests/RwSector.lean --- the read/write test of `src/main.c` on a formatted track.

  `mfm_rw_sector` scans the track, checks the headers it sees against the ones it
  expects, writes random data into one sector and reads it back; whatever differs
  fires a `WARN_ON`.  On a track that was formatted with the headers it expects,
  it is silent, however often it runs and on whichever sectors
  (`mfmRwSector_spec`, `RwTest.keeps`).

  What the test prints about the rotation of the disk is left out.
-/
import FlashFloppyTestbed.Disk.Gap
import FlashFloppyTestbed.Disk.IdamCheck
import FlashFloppyTestbed.Disk.Interleave
import FlashFloppyTestbed.Disk.Store
import FlashFloppyTestbed.Tests.Data

set_option autoImplicit false

namespace FlashFloppyTestbed

open FlashFloppyTestbed.Foundation FlashFloppyTestbed.Floppy

/-! ## The test -/

/-- What a run of the test meets: the memory, the bitcell size, the positions at which it
scans, writes and reads, at which it reads on behind each read, and the times of the scan. -/
structure RwEnv where
  mem : Mem
  buffers : Nat × Nat
  junk : Nat → List Byte
  table : Nat → Idam
  ticksPerCell : BitVec 32
  fuel : Nat
  scanAt : Nat
  scanResume : Nat → Nat
  start : Nat → BitVec 32
  indexTimestamp : BitVec 32
  writeAt : Nat
  writeResume : Nat → Nat
  readAt : Nat
  readResume : Nat → Nat

/-- `mfm_rw_sector(idam, base, nr)`. -/
def mfmRwSector (e : RwEnv) (d : Disk) (seed : BitVec 32) (idam : Idam) (base nr : Byte) :
    Option TestResult := do
  let scan ← ibmMfmScan d e.scanResume e.start e.fuel e.mem e.buffers.1 64 e.ticksPerCell
    e.indexTimestamp e.scanAt
  let expected ← mkIbmIdams e.fuel (Function.update e.table 0 { idam with r := base }) nr.toNat
    1 0 0
  let check := checkIbmIdams ((List.range nr.toNat).map expected) (seenIdam scan.info e.junk)
    scan.count
  let p := randBytes idam.size seed
  let w ← ibmMfmWriteSector d e.writeResume e.fuel e.mem e.buffers.1 e.buffers.2 p.1 idam
    (scan.gap3.toNat / 2) e.writeAt
  let q ← ibmMfmReadSector w.disk e.readResume e.fuel e.mem e.buffers.1 e.buffers.2 idam e.readAt
  some
    { disk := w.disk
      seed := p.2
      warned := decide (scan.gap3.toInt < 0) || check.warned || w.warned || q.warned ||
        decide (p.1 ≠ q.data) }

/-- The headers that the test expects. -/
def expectedIdams (idam : Idam) (base nr : Byte) : List Idam :=
  (List.range nr.toNat).map (trackIdam { idam with r := base })

/-! ## The check of the headers -/

theorem compareIdams_same (seen : Nat → List Byte) : ∀ (expected : List Idam) (i : Nat),
    (∀ j e, expected[j]? = some e → e.bytes = seen (i + j)) →
    (compareIdams seen expected i).warned = false := by
  intro expected
  induction expected with
  | nil => exact fun _ _ => rfl
  | cons e expected ih =>
    intro i hsame
    rw [compareIdams, if_neg (show ¬ e.bytes ≠ seen i from not_not.mpr (hsame 0 e rfl))]
    refine ih (i + 1) fun j e' hj => ?_
    rw [show i + 1 + j = i + (j + 1) by omega]
    exact hsame (j + 1) e' hj

/-- **`check_ibm_idams`** is silent on what it expects. -/
theorem checkIbmIdams_same {expected : List Idam} {info : List ScanInfo} (junk : Nat → List Byte)
    (h : info.map ScanInfo.idam = expected.map Idam.bytes) :
    (checkIbmIdams expected (seenIdam info junk) expected.length).warned = false := by
  have hsame : (compareIdams (seenIdam info junk) expected 0).warned = false := by
    refine compareIdams_same _ _ _ fun j e hj => ?_
    have hget := congrArg (·[j]?) h
    simp only [List.getElem?_map, hj, Option.map_some] at hget
    rw [Nat.zero_add, seenIdam, hget, Option.getD_some]
  rw [checkIbmIdams, if_neg (not_not.mpr rfl)]
  simp only [hsame, Bool.false_eq_true, if_false]

/-! ## One run -/

namespace Disk.Formatted

variable {d : Disk} {gap3 : Nat} {secs : List Sector} {fs : List Byte}

/-- Two formatted revolutions with the same headers have the same marks. -/
theorem markOffs_congr {secs secs' : List Sector} (h : ∀ s ∈ secs, s.data.length = s.idam.size)
    (h' : ∀ s ∈ secs', s.data.length = s.idam.size)
    (hsame : secs.map Sector.idam = secs'.map Sector.idam) (st : Nat) :
    markOffs gap3 st secs = markOffs gap3 st secs' := by
  induction secs generalizing secs' st with
  | nil =>
    obtain rfl : secs' = [] := List.map_eq_nil_iff.mp hsame.symm
    rfl
  | cons s secs ih =>
    obtain ⟨s', rest, rfl⟩ := List.exists_cons_of_ne_nil
      (show secs' ≠ [] from fun hnil => by rw [hnil] at hsame; cases hsame)
    obtain ⟨hhead, htail⟩ := List.cons.inj hsame
    have hlen : (sectorItems gap3 s).length = (sectorItems gap3 s').length := by
      rw [length_sectorItems, length_sectorItems, h s List.mem_cons_self,
        h' s' List.mem_cons_self, hhead]
    rw [markOffs, markOffs, hlen,
      ih (fun s hs => h s (List.mem_cons_of_mem _ hs))
        (fun s hs => h' s (List.mem_cons_of_mem _ hs)) htail]

/-- A program that is fast enough for one is fast enough for the other. -/
theorem timely_congr {d' : Disk} {secs' : List Sector} {fs' : List Byte}
    (h : d.Formatted gap3 secs fs) (h' : d'.Formatted gap3 secs' fs')
    (hsame : secs.map Sector.idam = secs'.map Sector.idam) (hsize : d'.size = d.size) {n : Nat}
    {resume : Nat → Nat} (hresume : d.Timely n resume) : d'.Timely n resume := by
  have hsync : ∀ o, d'.SyncAt o ↔ d.SyncAt o := by
    intro o
    rw [h.syncAt_iff, h'.syncAt_iff, hsize, markOffs_congr h.data h'.data hsame]
  intro o ho
  obtain ⟨hge, hnone⟩ := hresume o ((hsync o).mp ho)
  exact ⟨hge, fun o' hlo hhi => (hsync o').not.mpr (hnone o' hlo hhi)⟩

/-- The first two records of a scan. -/
theorem headers_cons_cons {a b : Sector} {rest : List Sector}
    (h : d.Formatted gap3 (a :: b :: rest) fs) (start : Nat → BitVec 32)
    (indexTimestamp : BitVec 32) :
    ∃ more, headers gap3 start indexTimestamp [] (a :: b :: rest) =
      ⟨a.idam.bytes, start (16 * 76) - indexTimestamp⟩ ::
        ⟨b.idam.bytes, start (16 * (76 + sectorBytes gap3 a.idam)) - indexTimestamp⟩ :: more := by
  have hlen : 64 + sectorsLength gap3 ([] ++ [a]) + 12 = 76 + sectorBytes gap3 a.idam := by
    rw [List.nil_append, sectorsLength, List.flatMap_singleton, length_sectorItems,
      h.data a List.mem_cons_self, sectorBytes]
    omega
  rw [headers, headers, hlen]
  exact ⟨_, rfl⟩

end Disk.Formatted

/-- Where the test finds two headers, it times them to within half a byte.  Where it finds
one only, it takes the gap to be 84 bytes, of which it fills one half. -/
def RwEnv.Clocked (e : RwEnv) (gap3 : Nat) : List Idam → Prop
  | [] => True
  | [_] => 42 ≤ gap3
  | a :: _ :: _ =>
    let cell := e.ticksPerCell.toNat
    let ideal := sectorBytes gap3 a * (2 * cell)
    |((e.start (16 * (76 + sectorBytes gap3 a)) - e.start (16 * 76)).toNat : Int) - ideal| < cell ∧
      ideal + 2 * cell < 2 ^ 32 ∧ 0 < cell

/-- What the test relies on. -/
structure RwEnv.Good (e : RwEnv) (d : Disk) (gap3 : Nat) (idams : List Idam) : Prop where
  fuel : d.size ≤ e.fuel
  scanAt : e.scanAt ≤ 16 * (64 + mfmGapSync)
  scan : d.Timely 10 e.scanResume
  write : d.Timely 10 e.writeResume
  read : d.Timely 10 e.readResume
  clocked : e.Clocked gap3 idams

/-- **The gap** that the scan comes to is not negative, and one half of it fits. -/
theorem RwEnv.Clocked.gap {e : RwEnv} {d : Disk} {gap3 : Nat} {secs : List Sector}
    {fs : List Byte} (h : d.Formatted gap3 secs fs) (hne : secs ≠ [])
    (hclocked : e.Clocked gap3 (secs.map Sector.idam)) {n : Nat} (hn : n = secs.length) :
    ∃ g, scanGap3 e.ticksPerCell 64 n
        ((Disk.Formatted.headers gap3 e.start e.indexTimestamp [] secs).take 64) =
          BitVec.ofNat 32 g ∧ 2 * g < 2 ^ 32 ∧ g / 2 + g / 2 % 2 ≤ gap3 := by
  subst hn
  obtain _ | ⟨a, _ | ⟨b, rest⟩⟩ := secs
  · exact absurd rfl hne
  · exact ⟨84, rfl, by decide, hclocked⟩
  · obtain ⟨hnear, hfit, hpos⟩ := hclocked
    obtain ⟨more, hheaders⟩ := h.headers_cons_cons e.start e.indexTimestamp
    have hticks : ∀ x y : BitVec 32, x - e.indexTimestamp - (y - e.indexTimestamp) = x - y :=
      fun x y => sub_sub_sub_cancel_right x y e.indexTimestamp
    have hsize := a.idam.le_size
    have hlarge : 190 ≤ sectorBytes gap3 a.idam := by
      rw [sectorBytes]
      omega
    obtain ⟨hlo, hhi, -, -, hsmall⟩ := margins hpos hlarge hnear hfit
    rw [hheaders, List.take_succ_cons, List.take_succ_cons]
    have heq := @scanGap3_eq e.ticksPerCell 64 (a :: b :: rest).length gap3
      ⟨a.idam.bytes, e.start (16 * 76) - e.indexTimestamp⟩
      ⟨b.idam.bytes, e.start (16 * (76 + sectorBytes gap3 a.idam)) - e.indexTimestamp⟩
      (more.take 62) a.idam (by simp) (by decide) rfl hpos hfit (by rw [hticks]; exact hlo)
      (by rw [hticks]; exact hhi)
    have hbytes : sectorBytes gap3 a.idam = 62 + a.idam.size + gap3 := rfl
    exact ⟨gap3, heq, by omega, by omega⟩

theorem size_of_write {d : Disk} {resume : Nat → Nat} {fuel : Nat} {m : Mem} {p₁ p₂ : Nat}
    {buf : List Byte} {idam : Idam} {gap3 t : Nat} {w : SectorWrite}
    (h : ibmMfmWriteSector d resume fuel m p₁ p₂ buf idam gap3 t = some w) :
    w.disk.size = d.size := by
  obtain ⟨f, -, rfl⟩ := Option.map_eq_some_iff.mp h
  rfl

/-- **One run of the test** on a track with the headers that it expects: no warning, and the
sector holds the random data. -/
theorem mfmRwSector_spec {e : RwEnv} {d : Disk} {gap3 : Nat} {pre post : List Sector}
    {s : Sector} {fs : List Byte} (h : d.Formatted gap3 (pre ++ s :: post) fs)
    (hother : ∀ s' ∈ pre ++ post, s'.idam ≠ s.idam) {base nr : Byte}
    (hidams : (pre ++ s :: post).map Sector.idam = expectedIdams s.idam base nr)
    (hr : base.toNat + nr.toNat ≤ 255) (hnr : nr.toNat ≤ 64)
    (hgood : e.Good d gap3 ((pre ++ s :: post).map Sector.idam)) (seed : BitVec 32) :
    ∃ r, mfmRwSector e d seed s.idam base nr = some r ∧ r.warned = false ∧
      r.seed = (randBytes s.idam.size seed).2 ∧ r.disk.size = d.size ∧
      r.disk.Formatted gap3 (pre ++ ⟨s.idam, (randBytes s.idam.size seed).1⟩ :: post) fs := by
  obtain ⟨data, hdata⟩ : ∃ data, data = (randBytes s.idam.size seed).1 := ⟨_, rfl⟩
  obtain ⟨secs, hsecs⟩ : ∃ secs, secs = pre ++ s :: post := ⟨_, rfl⟩
  have hlen : secs.length = nr.toNat := by
    have hcount := congrArg List.length hidams
    rwa [List.length_map, expectedIdams, List.length_map, List.length_range, ← hsecs] at hcount
  have hne : secs ≠ [] := by simp [hsecs]
  -- the scan
  have hscanned := h
  rw [← hsecs] at hscanned hidams hgood
  have hfuel : 2 * secs.length < e.fuel := by
    have hge := hscanned.size_ge
    have hle := hgood.fuel
    have hlong := length_le_sectorsLength gap3 secs
    rw [length_trackItems] at hge
    omega
  obtain ⟨scan, hscan, hcount, hinfo, hgap⟩ := hscanned.ibmMfmScan_records hne hgood.scan e.start
    e.mem e.buffers.1 64 e.ticksPerCell e.indexTimestamp hfuel hgood.scanAt
  obtain ⟨g, hg, hsmall, hfits⟩ := hgood.clocked.gap hscanned hne hcount
  rw [← hinfo, ← hgap] at hg
  have hnat : scan.gap3.toNat = g := by
    rw [hg, BitVec.toNat_ofNat, Nat.mod_eq_of_lt (by omega)]
  have hpositive : ¬ scan.gap3.toInt < 0 := by
    rw [BitVec.toInt_eq_toNat_of_lt (by omega)]
    omega
  -- the headers
  obtain ⟨table, hmk, htable⟩ := @mkIbmIdams_sequential
    (Function.update e.table 0 { s.idam with r := base }) nr.toNat
    (by rw [Function.update_self]; exact hr)
  rw [Function.update_self] at htable
  have hexpected : (List.range nr.toNat).map table = expectedIdams s.idam base nr :=
    List.map_congr_left fun i hi => htable i (List.mem_range.mp hi)
  have hseen : scan.info.map ScanInfo.idam = (expectedIdams s.idam base nr).map Idam.bytes := by
    rw [hinfo, List.map_take, Disk.Formatted.map_idam_headers, ← hidams, List.map_map,
      List.take_of_length_le (by rw [List.length_map]; omega)]
    rfl
  have hcheck := checkIbmIdams_same e.junk hseen
  have hexplen : (expectedIdams s.idam base nr).length = scan.count := by
    rw [expectedIdams, List.length_map, List.length_range, hcount, hlen]
  rw [hexplen] at hcheck
  -- the write, and the read behind it
  have hbuf : data.length = s.idam.size := by rw [hdata, length_randBytes]
  obtain ⟨w, hwrite, hwarned, hformatted⟩ := h.ibmMfmWriteSector_spec hother hgood.write
    hgood.fuel e.mem e.buffers.1 e.buffers.2 hbuf (g := scan.gap3.toNat / 2)
    (by rw [hnat]; exact hfits) e.writeAt
  have hsize := size_of_write hwrite
  have hresume : w.disk.Timely 10 e.readResume :=
    h.timely_congr hformatted (by simp) hsize hgood.read
  have hread := hformatted.ibmMfmReadSector_spec (s := ⟨s.idam, data⟩) hother hresume
    (hsize ▸ hgood.fuel) e.mem e.buffers.1 e.buffers.2 e.readAt
  refine ⟨⟨w.disk, (randBytes s.idam.size seed).2, false⟩, ?_, rfl, rfl, hsize, hdata ▸ hformatted⟩
  rw [mfmRwSector, hscan, hmk e.fuel (by omega)]
  simp only [Option.bind_eq_bind, Option.bind_some, hexpected, hcheck, ← hdata, hwrite, hread,
    hwarned, hpositive, ne_eq, not_true_eq_false, decide_false, Bool.or_false]

/-! ## Runs of the test -/

/-- What a sequence of tests works on and leaves behind: the revolution, the sectors written
so far with the last one in front, the seed, and whether a `WARN_ON` fired. -/
structure RwState where
  disk : Disk
  log : List (Idam × List Byte)
  seed : BitVec 32
  warned : Bool

/-- A test of one of the sectors of a track. -/
inductive RwTest (idam : Idam) (base nr : Byte) (gap3 : Nat) : RwState → RwState → Prop where
  | test {e : RwEnv} {st : RwState} {i : Idam} {r : TestResult} :
      i ∈ expectedIdams idam base nr → e.Good st.disk gap3 (expectedIdams idam base nr) →
      mfmRwSector e st.disk st.seed i base nr = some r →
      RwTest idam base nr gap3 st
        ⟨r.disk, (i, (randBytes i.size st.seed).1) :: st.log, r.seed, st.warned || r.warned⟩

section Runs

variable {idam : Idam} {base nr : Byte} {gap3 : Nat} {fs : List Byte}

theorem expectedIdams_of_mem {i : Idam} (hi : i ∈ expectedIdams idam base nr) :
    expectedIdams i base nr = expectedIdams idam base nr := by
  obtain ⟨j, -, rfl⟩ := List.mem_map.mp hi
  rfl

theorem expectedIdams_nodup (hr : base.toNat + nr.toNat ≤ 255) :
    (expectedIdams idam base nr).Nodup := by
  refine List.Nodup.map_on (fun i hi j hj heq => ?_) List.nodup_range
  have hi := toNat_trackIdam_r (show ({ idam with r := base } : Idam).r.toNat + nr.toNat ≤ 255
    from hr) (List.mem_range.mp hi)
  have hj := toNat_trackIdam_r (show ({ idam with r := base } : Idam).r.toNat + nr.toNat ≤ 255
    from hr) (List.mem_range.mp hj)
  rw [heq, hj] at hi
  omega

/-- What every sequence of tests keeps. -/
structure RwState.Kept (st : RwState) (idams : List Idam) (gap3 : Nat) (fs : List Byte) : Prop where
  formatted : st.disk.Formatted gap3 (writtenSectors idams st.log) fs
  silent : st.warned = false

/-- A test of a sector that keeps this. -/
theorem RwState.Kept.mfmRwSector {st : RwState}
    (h : st.Kept (expectedIdams idam base nr) gap3 fs) (hr : base.toNat + nr.toNat ≤ 255)
    (hnr : nr.toNat ≤ 64) {e : RwEnv} (hgood : e.Good st.disk gap3 (expectedIdams idam base nr))
    {i : Idam} (hi : i ∈ expectedIdams idam base nr) :
    ∃ r, mfmRwSector e st.disk st.seed i base nr = some r ∧ r.warned = false ∧
      r.seed = (randBytes i.size st.seed).2 ∧
      r.disk.Formatted gap3 (writtenSectors (expectedIdams idam base nr)
        ((i, (randBytes i.size st.seed).1) :: st.log)) fs := by
  obtain ⟨pre, post, hsecs, hother, hnew⟩ :=
    writtenSectors_split st.log (expectedIdams_nodup hr) hi
  have hidams : (pre ++ ⟨i, contents st.log i⟩ :: post).map Sector.idam =
      expectedIdams i base nr := by
    rw [← hsecs, expectedIdams_of_mem hi, writtenSectors, List.map_map]
    exact List.map_id _
  have hformatted := h.formatted
  rw [hsecs] at hformatted
  obtain ⟨r, hrun, hwarned, hseed, -, hafter⟩ := mfmRwSector_spec hformatted hother hidams hr hnr
    (by rw [hidams, expectedIdams_of_mem hi]; exact hgood) st.seed
  exact ⟨r, hrun, hwarned, hseed, by rw [hnew]; exact hafter⟩

theorem RwTest.keeps (hr : base.toNat + nr.toNat ≤ 255) (hnr : nr.toNat ≤ 64) {st st' : RwState}
    (hstep : RwTest idam base nr gap3 st st')
    (h : st.Kept (expectedIdams idam base nr) gap3 fs) :
    st'.Kept (expectedIdams idam base nr) gap3 fs := by
  cases hstep with
  | @test e _ i r hi hgood hrun =>
    obtain ⟨r', hrun', hwarned, -, hformatted⟩ := h.mfmRwSector hr hnr hgood hi
    rw [hrun] at hrun'
    rw [← Option.some.inj hrun'] at hwarned hformatted
    exact ⟨hformatted, by rw [h.silent, hwarned]; rfl⟩

end Runs

/-- **The read/write test never cries wolf.**  On a track that `ibm_mfm_write_track` formatted
with the headers that the test expects, whatever sectors it was run on before and in whatever
order, no `WARN_ON` has fired; every sector reads as the random bytes last put there; and the
test can be run once more, on any sector, without a warning. -/
theorem mfm_rw_sector_silent (m : Mem) (p : Nat) (idam : Idam) {base nr : Byte}
    (hr : base.toNat + nr.toNat ≤ 255) (hnr : nr.toNat ≤ 64) {gap3 : Nat} (heven : gap3 % 2 = 0)
    (fs : List Byte) (n : Nat) (seed : BitVec 32) {st : RwState}
    (hrun : Relation.ReflTransGen (RwTest idam base nr gap3)
      ⟨formattedDisk m p (expectedIdams idam base nr) gap3 fs n, [], seed, false⟩ st) :
    st.warned = false ∧ ∀ i ∈ expectedIdams idam base nr,
      (∀ e : RwEnv, e.Good st.disk gap3 (expectedIdams idam base nr) →
        ∃ r, mfmRwSector e st.disk st.seed i base nr = some r ∧ r.warned = false) ∧
      ∀ resume fuel m' p₁ p₂ t, st.disk.Timely 10 resume → st.disk.size ≤ fuel →
        ibmMfmReadSector st.disk resume fuel m' p₁ p₂ i t =
          some ⟨contents st.log i, false⟩ := by
  have hkept : st.Kept (expectedIdams idam base nr) gap3 fs :=
    run_invariant (P := fun st => st.Kept (expectedIdams idam base nr) gap3 fs)
      (fun _ _ hstep => hstep.keeps hr hnr) hrun ⟨formattedDisk_formatted m p _ heven fs n, rfl⟩
  refine ⟨hkept.silent, fun i hi => ⟨fun e hgood => ?_, ?_⟩⟩
  · obtain ⟨r, hr, hwarned, -⟩ := hkept.mfmRwSector hr hnr hgood hi
    exact ⟨r, hr, hwarned⟩
  · intro resume fuel m' p₁ p₂ t hresume hfuel
    obtain ⟨pre, post, hsecs, hother, -⟩ :=
      writtenSectors_split st.log (expectedIdams_nodup hr) hi
    have hformatted := hkept.formatted
    rw [hsecs] at hformatted
    exact hformatted.ibmMfmReadSector_spec hother hresume hfuel m' p₁ p₂ t

/-- The test, run twice on a track with one sector. -/
theorem mfm_rw_sector_silent_twice :
    ∃ st : RwState, Relation.ReflTransGen (RwTest ⟨0, 0, 1, 0⟩ 1 1 84)
        ⟨formattedDisk (fun _ => 0) 0 (expectedIdams ⟨0, 0, 1, 0⟩ 1 1) 84 [] 0, [], 7, false⟩ st ∧
      st.log.length = 2 ∧ st.warned = false := by
  obtain ⟨e, he⟩ : ∃ e : Disk → RwEnv, e = fun d =>
      { mem := fun _ => 0, buffers := (0, 4096), junk := fun _ => [],
        table := fun _ => ⟨0, 0, 0, 0⟩,
        ticksPerCell := 144, fuel := d.size, scanAt := 0, scanResume := id, start := fun _ => 0,
        indexTimestamp := 0, writeAt := 5, writeResume := id, readAt := 6, readResume := id } :=
    ⟨_, rfl⟩
  have hid : ∀ d : Disk, d.Timely 10 id :=
    fun _ _ _ => ⟨Nat.le_refl _, fun _ hle hlt => absurd hlt (Nat.not_lt_of_le hle)⟩
  have hgood : ∀ d, (e d).Good d 84 (expectedIdams ⟨0, 0, 1, 0⟩ 1 1) := by
    intro d
    rw [he]
    exact ⟨Nat.le_refl _, Nat.zero_le _, hid d, hid d, hid d, show 42 ≤ 84 by decide⟩
  have hmem : (⟨0, 0, 1, 0⟩ : Idam) ∈ expectedIdams ⟨0, 0, 1, 0⟩ 1 1 := by decide
  have hsilent := @mfm_rw_sector_silent (fun _ => 0) 0 ⟨0, 0, 1, 0⟩ 1 1 (by decide) (by decide) 84
    (by decide) [] 0 7
  obtain ⟨r, hr, -⟩ := ((hsilent .refl).2 _ hmem).1 _ (hgood _)
  have hone := Relation.ReflTransGen.single (RwTest.test hmem (hgood _) hr)
  obtain ⟨r', hr', -⟩ := ((hsilent hone).2 _ hmem).1 _ (hgood _)
  have htwo := hone.tail (RwTest.test hmem (hgood _) hr')
  exact ⟨_, htwo, rfl, (hsilent htwo).1⟩

end FlashFloppyTestbed
