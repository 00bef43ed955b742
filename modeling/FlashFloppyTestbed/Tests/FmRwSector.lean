/-
  Tests/FmRwSector.lean --- the FM read/write test of `src/main.c` on an FM track.

  `fm_rw_sector` is `mfm_rw_sector` with the FM calls.  `ibm_fm_scan` assigns the gap
  only where it has seen two headers, so that on a track with one sector the test
  writes with what its variable happened to hold.  On a track with the headers that
  it expects, it is silent (`fmRwSector_spec`, `FmRwTest.keeps`).

  What the test prints about the rotation of the disk is left out.
-/
import FlashFloppyTestbed.Disk.FmStore
import FlashFloppyTestbed.Tests.RwSector

set_option autoImplicit false

namespace FlashFloppyTestbed

open FlashFloppyTestbed.Foundation FlashFloppyTestbed.Floppy

/-! ## The test -/

/-- What a run of the test meets; `gap3` is what the variable of that name holds before
the scan. -/
structure FmRwEnv extends RwEnv where
  gap3 : BitVec 32

/-- `fm_rw_sector(idam, base, nr)`. -/
def fmRwSector (e : FmRwEnv) (d : Disk) (seed : BitVec 32) (idam : Idam) (base nr : Byte) :
    Option TestResult := do
  let scan ← ibmFmScan d e.scanResume e.start e.fuel e.mem e.buffers.1 64 e.ticksPerCell
    e.indexTimestamp e.scanAt
  let expected ← mkIbmIdams e.fuel (Function.update e.table 0 { idam with r := base }) nr.toNat
    1 0 0
  let check := checkIbmIdams ((List.range nr.toNat).map expected) (seenIdam scan.info e.junk)
    scan.count
  let p := randBytes idam.size seed
  let w ← ibmFmWriteSector d e.writeResume e.fuel e.mem e.buffers.1 e.buffers.2 p.1 idam
    ((scan.gap3.getD e.gap3).toNat / 2) e.writeAt
  let q ← ibmFmReadSector w.disk e.readResume e.fuel e.mem e.buffers.1 e.buffers.2 idam e.readAt
  some
    { disk := w.disk
      seed := p.2
      warned := scan.gap3.any (fun g => decide (g.toInt < 0)) || check.warned || w.warned ||
        q.warned || decide (p.1 ≠ q.data) }

/-! ## The gap -/

/-- The bytes of an FM sector, from its header's gap to the next one's. -/
def fmSectorBytes (gap3 : Nat) (idam : Idam) : Nat := 33 + idam.size + gap3

/-- **The gap that `ibm_fm_scan` computes**, if the time between the headers is less than half
a byte off. -/
theorem fmScanGap3_eq {ticksPerCell : BitVec 32} {max i gap3 : Nat} {i₀ i₁ : ScanInfo}
    {rest : List ScanInfo} {idam : Idam} (hi : 2 ≤ i) (hmax : 2 ≤ max)
    (hidam : i₀.idam = idam.bytes) (hpos : 0 < ticksPerCell.toNat)
    (hfit : fmSectorBytes gap3 idam * (2 * ticksPerCell.toNat) + 2 * ticksPerCell.toNat < 2 ^ 32)
    (hnear : |((i₁.ticksPastIndex - i₀.ticksPastIndex).toNat : Int) -
      (fmSectorBytes gap3 idam * (2 * ticksPerCell.toNat) : Nat)| < ticksPerCell.toNat) :
    fmScanGap3 ticksPerCell max i (i₀ :: i₁ :: rest) = some (BitVec.ofNat 32 gap3) := by
  have hsize := idam.le_size
  have hbytes : 33 + idam.size + gap3 = fmSectorBytes gap3 idam := rfl
  have hcell : 161 * (2 * ticksPerCell.toNat) ≤
      fmSectorBytes gap3 idam * (2 * ticksPerCell.toNat) :=
    Nat.mul_le_mul_right _ (by omega)
  have hlen : fmSectorBytes gap3 idam ≤ fmSectorBytes gap3 idam * (2 * ticksPerCell.toNat) :=
    Nat.le_mul_of_pos_right _ (by omega)
  obtain ⟨hlo, hhi⟩ := abs_lt.mp hnear
  have hsec := @toNat_secBytes ticksPerCell (i₁.ticksPastIndex - i₀.ticksPastIndex)
    (fmSectorBytes gap3 idam) (by omega) (by omega) (by omega) hfit
  have hn : (i₀.idam.getD 3 0).toNat = idam.n.toNat := by rw [hidam]; rfl
  have hshift : (128#32 <<< idam.n.toNat).toNat = idam.size := by
    have h128 : (128#32).toNat = 128 := rfl
    rw [BitVec.toNat_shiftLeft, h128, ← Idam.size, Nat.mod_eq_of_lt (by omega)]
  rw [fmScanGap3, if_pos ⟨hi, hmax⟩]
  dsimp only
  rw [hn]
  refine congrArg some (BitVec.eq_of_toNat_eq ?_)
  rw [BitVec.toNat_sub, BitVec.toNat_sub, hsec, BitVec.toNat_add, hshift, BitVec.toNat_ofNat,
    BitVec.toNat_ofNat, BitVec.toNat_ofNat, fmGapSync, fmGap2]
  omega

/-- Where the test finds two headers, it times them to within half a byte.  Where it finds
one only, what its variable holds is a gap of which one half fits. -/
def FmRwEnv.Clocked (e : FmRwEnv) (lead gap3 : Nat) : List Idam → Prop
  | [] => True
  | [_] => e.gap3.toNat / 2 + (e.gap3.toNat / 2 + 1) % 2 ≤ gap3
  | a :: _ :: _ =>
    let cell := e.ticksPerCell.toNat
    let ideal := fmSectorBytes gap3 a * (2 * cell)
    |((e.start (16 * (lead + fmSectorBytes gap3 a + 5)) -
      e.start (16 * (lead + 5))).toNat : Int) - ideal| < cell ∧
      ideal + 2 * cell < 2 ^ 32 ∧ 0 < cell ∧ 0 < gap3

/-- What the test relies on. -/
structure FmRwEnv.Good (e : FmRwEnv) (d : Disk) (lead gap3 : Nat) (idams : List Idam) : Prop where
  fuel : d.size ≤ e.fuel
  scanAt : e.scanAt ≤ 16 * lead + 79
  scan : d.FmTimely 8 e.scanResume
  write : d.FmTimely 8 e.writeResume
  read : d.FmTimely 8 e.readResume
  clocked : e.Clocked lead gap3 idams

/-- **The gap** that the test writes with is not negative where the scan assigns it, and one
half of it fits. -/
theorem FmRwEnv.Clocked.gap {e : FmRwEnv} {d : Disk} {lead gap3 : Nat} {secs : List Sector}
    (h : d.FmFormatted lead gap3 secs) (hne : secs ≠ [])
    (hclocked : e.Clocked lead gap3 (secs.map Sector.idam)) :
    let assigned := fmScanGap3 e.ticksPerCell 64 secs.length
      ((Disk.FmFormatted.fmHeaders lead gap3 e.start e.indexTimestamp [] secs).take 64)
    assigned.any (fun g => decide (g.toInt < 0)) = false ∧
      (assigned.getD e.gap3).toNat / 2 + ((assigned.getD e.gap3).toNat / 2 + 1) % 2 ≤ gap3 := by
  obtain _ | ⟨a, _ | ⟨b, rest⟩⟩ := secs
  · exact absurd rfl hne
  · exact ⟨rfl, hclocked⟩
  · obtain ⟨hnear, hfit, hpos, hgap⟩ := hclocked
    have hsize := a.idam.le_size
    have hbytes : 33 + a.idam.size + gap3 = fmSectorBytes gap3 a.idam := rfl
    have hlen : fmSectorBytes gap3 a.idam * 2 ≤
        fmSectorBytes gap3 a.idam * (2 * e.ticksPerCell.toNat) :=
      Nat.mul_le_mul_left _ (by omega)
    have hdata : a.data.length = a.idam.size := h.data a List.mem_cons_self
    have hsecond : lead + fmSectorsLength gap3 ([] ++ [a]) + 5 =
        lead + fmSectorBytes gap3 a.idam + 5 := by
      rw [List.nil_append, fmSectorsLength_cons, fmSectorsLength_nil, hdata]
      omega
    have hticks : ∀ x y : BitVec 32, x - e.indexTimestamp - (y - e.indexTimestamp) = x - y :=
      fun x y => sub_sub_sub_cancel_right x y e.indexTimestamp
    intro assigned
    have hassigned : assigned = some (BitVec.ofNat 32 gap3) := by
      refine fmScanGap3_eq (by simp) (by decide) rfl hpos hfit ?_
      rw [hticks, hsecond]
      exact hnear
    have hnat : (BitVec.ofNat 32 gap3).toNat = gap3 := by
      rw [BitVec.toNat_ofNat, Nat.mod_eq_of_lt (by omega)]
    have hint : ¬ (BitVec.ofNat 32 gap3).toInt < 0 := by
      rw [BitVec.toInt_eq_toNat_of_lt (by omega)]
      omega
    rw [hassigned]
    refine ⟨decide_eq_false hint, ?_⟩
    rw [Option.getD_some, hnat]
    omega

/-! ## One run -/

/-- **One run of the test** on a track with the headers that it expects: no warning, and the
sector holds the random data. -/
theorem fmRwSector_spec {e : FmRwEnv} {d : Disk} {lead gap3 : Nat} {pre post : List Sector}
    {s : Sector} (h : d.FmFormatted lead gap3 (pre ++ s :: post))
    (hother : ∀ s' ∈ pre ++ post, s'.idam ≠ s.idam) {base nr : Byte}
    (hidams : (pre ++ s :: post).map Sector.idam = expectedIdams s.idam base nr)
    (hr : base.toNat + nr.toNat ≤ 255) (hnr : nr.toNat ≤ 64)
    (hgood : e.Good d lead gap3 ((pre ++ s :: post).map Sector.idam)) (seed : BitVec 32) :
    ∃ r, fmRwSector e d seed s.idam base nr = some r ∧ r.warned = false ∧
      r.seed = (randBytes s.idam.size seed).2 ∧
      r.disk.FmFormatted lead gap3 (pre ++ ⟨s.idam, (randBytes s.idam.size seed).1⟩ :: post) := by
  obtain ⟨data, hdata⟩ : ∃ data, data = (randBytes s.idam.size seed).1 := ⟨_, rfl⟩
  obtain ⟨secs, hsecs⟩ : ∃ secs, secs = pre ++ s :: post := ⟨_, rfl⟩
  have hlen : secs.length = nr.toNat := by
    have hcount := congrArg List.length hidams
    rwa [List.length_map, expectedIdams, List.length_map, List.length_range, ← hsecs] at hcount
  have hne : secs ≠ [] := by simp [hsecs]
  -- the scan
  have hscanned := h
  rw [← hsecs] at hscanned hidams hgood
  have hfuel := Nat.lt_of_lt_of_le hscanned.two_mul_lt hgood.fuel
  have hscan := hscanned.ibmFmScan_records hne hgood.scan e.start e.mem e.buffers.1 64
    e.ticksPerCell e.indexTimestamp hfuel hgood.scanAt
  obtain ⟨hpositive, hfits⟩ := hgood.clocked.gap hscanned hne
  obtain ⟨info, hinfo⟩ : ∃ info, info = (Disk.FmFormatted.fmHeaders lead gap3 e.start
    e.indexTimestamp [] secs).take 64 := ⟨_, rfl⟩
  rw [← hinfo] at hscan hpositive hfits
  -- the headers
  obtain ⟨table, hmk, htable⟩ := @mkIbmIdams_sequential
    (Function.update e.table 0 { s.idam with r := base }) nr.toNat
    (by rw [Function.update_self]; exact hr)
  rw [Function.update_self] at htable
  have hexpected : (List.range nr.toNat).map table = expectedIdams s.idam base nr :=
    List.map_congr_left fun i hi => htable i (List.mem_range.mp hi)
  have hseen : info.map ScanInfo.idam = (expectedIdams s.idam base nr).map Idam.bytes := by
    rw [hinfo, List.map_take, Disk.FmFormatted.map_idam_fmHeaders, ← hidams, List.map_map,
      List.take_of_length_le (by rw [List.length_map]; omega)]
    rfl
  have hcheck := checkIbmIdams_same e.junk hseen
  have hexplen : (expectedIdams s.idam base nr).length = secs.length := by
    rw [expectedIdams, List.length_map, List.length_range, hlen]
  rw [hexplen] at hcheck
  -- the write, and the read behind it
  have hbuf : data.length = s.idam.size := by rw [hdata, length_randBytes]
  obtain ⟨w, hwrite, hwarned, hsize, hformatted⟩ := h.ibmFmWriteSector_spec hother hgood.write
    hgood.fuel e.mem e.buffers.1 e.buffers.2 hbuf hfits e.writeAt
  have hresume : w.disk.FmTimely 8 e.readResume := h.fmTimely_congr hformatted hsize hgood.read
  have hread := hformatted.ibmFmReadSector_spec (s := ⟨s.idam, data⟩) hother hresume
    (hsize ▸ hgood.fuel) e.mem e.buffers.1 e.buffers.2 e.readAt
  refine ⟨⟨w.disk, (randBytes s.idam.size seed).2, false⟩, ?_, rfl, rfl, hdata ▸ hformatted⟩
  rw [fmRwSector, hscan, hmk e.fuel (by omega)]
  simp only [Option.bind_eq_bind, Option.bind_some, hexpected, hcheck, ← hdata, hwrite, hread,
    hwarned, hpositive, ne_eq, not_true_eq_false, decide_false, Bool.or_false]

/-! ## Runs of the test -/

/-- What a sequence of tests works on and leaves behind: the revolution, what its sectors
hold, the seed, and whether a `WARN_ON` fired. -/
structure FmRwState where
  disk : Disk
  held : Idam → List Byte
  seed : BitVec 32
  warned : Bool

/-- A test of one of the sectors of a track. -/
inductive FmRwTest (idam : Idam) (base nr : Byte) (lead gap3 : Nat) :
    FmRwState → FmRwState → Prop where
  | test {e : FmRwEnv} {st : FmRwState} {i : Idam} {r : TestResult} :
      i ∈ expectedIdams idam base nr → e.Good st.disk lead gap3 (expectedIdams idam base nr) →
      fmRwSector e st.disk st.seed i base nr = some r →
      FmRwTest idam base nr lead gap3 st
        ⟨r.disk, Function.update st.held i (randBytes i.size st.seed).1, r.seed,
          st.warned || r.warned⟩

/-- What every sequence of tests keeps. -/
structure FmRwState.Kept (st : FmRwState) (idams : List Idam) (lead gap3 : Nat) : Prop where
  formatted : st.disk.FmFormatted lead gap3 (storedSectors idams st.held)
  silent : st.warned = false

section Runs

variable {idam : Idam} {base nr : Byte} {lead gap3 : Nat}

/-- A test of a sector that keeps this. -/
theorem FmRwState.Kept.fmRwSector {st : FmRwState}
    (h : st.Kept (expectedIdams idam base nr) lead gap3) (hr : base.toNat + nr.toNat ≤ 255)
    (hnr : nr.toNat ≤ 64) {e : FmRwEnv}
    (hgood : e.Good st.disk lead gap3 (expectedIdams idam base nr)) {i : Idam}
    (hi : i ∈ expectedIdams idam base nr) :
    ∃ r, fmRwSector e st.disk st.seed i base nr = some r ∧ r.warned = false ∧
      r.seed = (randBytes i.size st.seed).2 ∧
      r.disk.FmFormatted lead gap3 (storedSectors (expectedIdams idam base nr)
        (Function.update st.held i (randBytes i.size st.seed).1)) := by
  obtain ⟨pre, post, hsecs, hother, hnew⟩ :=
    storedSectors_split st.held (expectedIdams_nodup hr) hi
  have hidams : (pre ++ ⟨i, st.held i⟩ :: post).map Sector.idam = expectedIdams i base nr := by
    rw [← hsecs, expectedIdams_of_mem hi, storedSectors, List.map_map]
    exact List.map_id _
  have hformatted := h.formatted
  rw [hsecs] at hformatted
  obtain ⟨r, hrun, hwarned, hseed, hafter⟩ := fmRwSector_spec hformatted hother hidams hr hnr
    (by rw [hidams, expectedIdams_of_mem hi]; exact hgood) st.seed
  exact ⟨r, hrun, hwarned, hseed, by rw [hnew]; exact hafter⟩

theorem FmRwTest.keeps (hr : base.toNat + nr.toNat ≤ 255) (hnr : nr.toNat ≤ 64)
    {st st' : FmRwState} (hstep : FmRwTest idam base nr lead gap3 st st')
    (h : st.Kept (expectedIdams idam base nr) lead gap3) :
    st'.Kept (expectedIdams idam base nr) lead gap3 := by
  cases hstep with
  | @test e _ i r hi hgood hrun =>
    obtain ⟨r', hrun', hwarned, -, hformatted⟩ := h.fmRwSector hr hnr hgood hi
    rw [hrun] at hrun'
    rw [← Option.some.inj hrun'] at hwarned hformatted
    exact ⟨hformatted, by rw [h.silent, hwarned]; rfl⟩

end Runs

/-- **The FM read/write test never cries wolf.**  On an FM track with the headers that the
test expects, whatever sectors it was run on before and in whatever order, no `WARN_ON` has
fired; every sector reads as the random bytes last put there, or as it did before; and the
test can be run once more, on any sector, without a warning. -/
theorem fm_rw_sector_silent {idam : Idam} {base nr : Byte} (hr : base.toNat + nr.toNat ≤ 255)
    (hnr : nr.toNat ≤ 64) {lead gap3 : Nat} {d₀ : Disk} {c₀ : Idam → List Byte}
    (h₀ : d₀.FmFormatted lead gap3 (storedSectors (expectedIdams idam base nr) c₀))
    (seed : BitVec 32) {st : FmRwState}
    (hrun : Relation.ReflTransGen (FmRwTest idam base nr lead gap3) ⟨d₀, c₀, seed, false⟩ st) :
    st.warned = false ∧ ∀ i ∈ expectedIdams idam base nr,
      (∀ e : FmRwEnv, e.Good st.disk lead gap3 (expectedIdams idam base nr) →
        ∃ r, fmRwSector e st.disk st.seed i base nr = some r ∧ r.warned = false) ∧
      ∀ resume fuel m p₁ p₂ t, st.disk.FmTimely 8 resume → st.disk.size ≤ fuel →
        ibmFmReadSector st.disk resume fuel m p₁ p₂ i t = some ⟨st.held i, false⟩ := by
  have hkept : st.Kept (expectedIdams idam base nr) lead gap3 :=
    run_invariant (P := fun st => st.Kept (expectedIdams idam base nr) lead gap3)
      (fun _ _ hstep => hstep.keeps hr hnr) hrun ⟨h₀, rfl⟩
  refine ⟨hkept.silent, fun i hi => ⟨fun e hgood => ?_, ?_⟩⟩
  · obtain ⟨r, hr, hwarned, -⟩ := hkept.fmRwSector hr hnr hgood hi
    exact ⟨r, hr, hwarned⟩
  · intro resume fuel m p₁ p₂ t hresume hfuel
    obtain ⟨pre, post, hsecs, hother, -⟩ :=
      storedSectors_split st.held (expectedIdams_nodup hr) hi
    have hformatted := hkept.formatted
    rw [hsecs] at hformatted
    exact hformatted.ibmFmReadSector_spec hother hresume hfuel m p₁ p₂ t

/-- The test, run twice on a track with two sectors: a bitcell of 144 ticks of SYSCLK is one of
18 on the timer. -/
theorem fm_rw_sector_silent_twice :
    ∃ st : FmRwState, Relation.ReflTransGen (FmRwTest fmOneSector 1 2 40 27)
        ⟨fmDisk 40 27 (storedSectors (expectedIdams fmOneSector 1 2)
          fun _ => List.replicate 128 0xe5) 40, fun _ => List.replicate 128 0xe5, 7, false⟩ st ∧
      st.warned = false ∧
        ibmFmReadSector st.disk id st.disk.size (fun _ => 0) 0 4096 fmOneSector 77 =
          some ⟨st.held fmOneSector, false⟩ := by
  obtain ⟨e, he⟩ : ∃ e : Disk → FmRwEnv, e = fun d =>
      { mem := fun _ => 0, buffers := (0, 4096), junk := fun _ => [],
        table := fun _ => ⟨0, 0, 0, 0⟩, ticksPerCell := 144, fuel := d.size, scanAt := 0,
        scanResume := id, start := fun o => BitVec.ofNat 32 (18 * o), indexTimestamp := 0,
        writeAt := 5, writeResume := id, readAt := 6, readResume := id, gap3 := 0 } :=
    ⟨_, rfl⟩
  have hid : ∀ d : Disk, d.FmTimely 8 id :=
    fun _ _ _ => ⟨Nat.le_refl _, fun _ hle hlt => absurd hlt (Nat.not_lt_of_le hle)⟩
  have hgood : ∀ d, (e d).Good d 40 27 (expectedIdams fmOneSector 1 2) := by
    intro d
    rw [he]
    refine ⟨Nat.le_refl _, Nat.zero_le _, hid d, hid d, hid d, ?_⟩
    refine ⟨?_, ?_, ?_, by decide⟩
    · show |((BitVec.ofNat 32 (18 * (16 * (40 + 188 + 5))) -
        BitVec.ofNat 32 (18 * (16 * (40 + 5)))).toNat : Int) - (188 * (2 * 144) : Nat)| < 144
      decide
    · show 188 * (2 * 144) + 2 * 144 < 2 ^ 32
      decide
    · show 0 < 144
      decide
  have hmem : fmOneSector ∈ expectedIdams fmOneSector 1 2 := by decide
  have h₀ : (fmDisk 40 27 (storedSectors (expectedIdams fmOneSector 1 2)
      fun _ => List.replicate 128 0xe5) 40).FmFormatted 40 27
      (storedSectors (expectedIdams fmOneSector 1 2) fun _ => List.replicate 128 0xe5) := by
    refine fmDisk_formatted 40 27 (by decide) fun s hs => ?_
    obtain ⟨i, hi, rfl⟩ := List.mem_map.mp hs
    obtain ⟨j, -, rfl⟩ := List.mem_map.mp hi
    exact List.length_replicate
  have hsilent := @fm_rw_sector_silent fmOneSector 1 2 (by decide) (by decide) 40 27 _ _ h₀ 7
  obtain ⟨r, hr, -⟩ := ((hsilent .refl).2 _ hmem).1 _ (hgood _)
  have hone := Relation.ReflTransGen.single (FmRwTest.test hmem (hgood _) hr)
  obtain ⟨r', hr', -⟩ := ((hsilent hone).2 _ hmem).1 _ (hgood _)
  have htwo := hone.tail (FmRwTest.test hmem (hgood _) hr')
  exact ⟨_, htwo, (hsilent htwo).1,
    ((hsilent htwo).2 _ hmem).2 id _ _ 0 4096 77 (hid _) (Nat.le_refl _)⟩

end FlashFloppyTestbed
