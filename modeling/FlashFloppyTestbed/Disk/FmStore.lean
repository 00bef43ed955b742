/-
  Disk/FmStore.lean --- an FM track is a store of sectors.

  `ibm_fm_write_sector` splices a new data field over the old one.  In FM no word
  depends on the one in front of it, so that the words it leaves are those of the
  track with the data of that one sector replaced (`FmFormatted.splice`).  Over any
  run of writes the track does what a map from headers to data does
  (`FmSectorStore.formatted`).
-/
import FlashFloppyTestbed.Disk.FmScan
import FlashFloppyTestbed.Disk.Store

set_option autoImplicit false

namespace FlashFloppyTestbed

open FlashFloppyTestbed.Foundation FlashFloppyTestbed.Floppy

/-! ## Writing over a data field -/

/-- The words of a data field, of which the gap is written in part. -/
theorem fmSectorWords_add (data : List Byte) (g k : Nat) :
    fmSectorWords data (g + k) = fmSectorWords data g ++ List.replicate k (fmCode 0xff) := by
  rw [fmSectorWords, fmSectorWords, List.replicate_add]
  simp only [List.append_assoc]

/-- The words of a track around the data field of a sector. -/
theorem map_word_fmTrackItems (lead gap3 : Nat) (pre post : List Sector) (i : Idam) :
    ∃ front back : List (BitVec 16), front.length = lead + fmSectorsLength gap3 pre + 24 ∧
      ∀ data, (fmTrackItems lead gap3 (pre ++ ⟨i, data⟩ :: post)).map FmItem.word =
        front ++ (fmSectorWords data gap3 ++ back) := by
  refine ⟨(fmBytes (List.replicate lead 0xff) ++ pre.flatMap (fmSectorItems gap3) ++
    fmIdamItems i).map FmItem.word, (post.flatMap (fmSectorItems gap3)).map FmItem.word, ?_,
    fun data => ?_⟩
  · rw [List.length_map, List.length_append, List.length_append, length_fmBytes,
      List.length_replicate, length_fmIdamItems, fmSectorsLength]
  · rw [← map_word_fmDamItems, ← List.map_append, ← List.map_append, fmTrackItems,
      List.flatMap_append, List.flatMap_cons, fmSectorItems]
    simp only [List.append_assoc]

namespace Disk.FmFormatted

variable {d : Disk} {lead gap3 : Nat} {pre post : List Sector} {s : Sector}

/-- **A data field written over the old one**, with a gap that is not longer, leaves an FM
track. -/
theorem splice (h : d.FmFormatted lead gap3 (pre ++ s :: post)) {buf : List Byte}
    (hbuf : buf.length = s.idam.size) {g t : Nat} (hg : g ≤ gap3)
    (ht : t % d.size = 16 * (lead + fmSectorsLength gap3 pre + 24)) :
    (d.splice t ((fmSectorWords buf g).flatMap bitsOf)).FmFormatted lead gap3
      (pre ++ ⟨s.idam, buf⟩ :: post) := by
  obtain ⟨k, rfl⟩ : ∃ k, gap3 = g + k := ⟨gap3 - g, by omega⟩
  have hdata : s.data.length = s.idam.size := h.data s (by simp)
  have hge := h.size_ge
  have hsame : (fmTrackItems lead (g + k) (pre ++ ⟨s.idam, buf⟩ :: post)).length =
      (fmTrackItems lead (g + k) (pre ++ s :: post)).length := by
    rw [length_fmTrackItems, length_fmTrackItems, fmSectorsLength_append, fmSectorsLength_append,
      fmSectorsLength_cons, fmSectorsLength_cons, hbuf, hdata]
  have hin : lead + fmSectorsLength (g + k) pre + 24 + (s.data.length + g + 9) ≤
      (fmTrackItems lead (g + k) (pre ++ s :: post)).length := by
    rw [length_fmTrackItems, fmSectorsLength_append, fmSectorsLength_cons]
    omega
  obtain ⟨front, back, hfront, hwords⟩ := map_word_fmTrackItems lead (g + k) pre post s.idam
  simp only [fmSectorWords_add, List.append_assoc] at hwords
  refine ⟨?_, fun r hr hout => ?_, ?_, fun s' hs' => ?_⟩
  · have hold := h.words
    rw [show s = ⟨s.idam, s.data⟩ from rfl, hwords] at hold
    rw [hwords]
    refine splice_cells hold ?_ (by rw [ht, hfront]) ?_
    · rw [length_fmSectorWords, length_fmSectorWords, hbuf, hdata]
    · rw [hfront, length_fmSectorWords]
      omega
  · have hr : r < d.size := hr
    rw [hsame] at hout
    show ((fmSectorWords buf g).flatMap bitsOf).getD ((r + d.size - t % d.size) % d.size)
      (d.cells r) = true
    have hpos : (r + d.size - t % d.size) % d.size =
        r - 16 * (lead + fmSectorsLength (g + k) pre + 24) := by
      rw [ht, Nat.mod_eq_sub_mod (by omega), Nat.mod_eq_of_lt (by omega)]
      omega
    rw [hpos, List.getD_eq_default _ _ (by
      rw [length_flatMap_bitsOf, length_fmSectorWords]; omega)]
    exact h.gap r hr hout
  · rw [hsame]
    exact hge
  · rw [List.mem_append, List.mem_cons] at hs'
    rcases hs' with hs' | rfl | hs'
    · exact h.data s' (by simp [hs'])
    · exact hbuf
    · exact h.data s' (by simp [hs'])

/-- The marks stay where they are, so that a program that reads on in time still does. -/
theorem fmTimely_congr (h : d.FmFormatted lead gap3 (pre ++ s :: post)) {d' : Disk}
    {buf : List Byte} (h' : d'.FmFormatted lead gap3 (pre ++ ⟨s.idam, buf⟩ :: post))
    (hsize : d'.size = d.size) {n : Nat} {resume : Nat → Nat} (hresume : d.FmTimely n resume) :
    d'.FmTimely n resume := by
  have hlen : s.data.length = buf.length :=
    (h.data s (by simp)).trans (h'.data ⟨s.idam, buf⟩ (by simp)).symm
  have hmarks : fmMarks 0 (fmTrackItems lead gap3 (pre ++ s :: post)) =
      fmMarks 0 (fmTrackItems lead gap3 (pre ++ ⟨s.idam, buf⟩ :: post)) := by
    rw [fmMarks_fmTrackItems, fmMarks_fmTrackItems, List.flatMap_append, List.flatMap_append,
      List.flatMap_cons, List.flatMap_cons, fmMarks_append, fmMarks_append, fmMarks_append,
      fmMarks_append, fmMarks_fmSectorItems, fmMarks_fmSectorItems, length_fmSectorItems,
      length_fmSectorItems, hlen]
  have hsync : ∀ o, d'.FmSyncAt o ↔ d.FmSyncAt o := by
    intro o
    rw [h.fmSyncAt_iff, h'.fmSyncAt_iff, hsize, hmarks]
  intro o ho
  obtain ⟨hge, hnone⟩ := hresume o ((hsync o).mp ho)
  exact ⟨hge, fun o' hlo hhi => (hsync o').not.mpr (hnone o' hlo hhi)⟩

/-- **`ibm_fm_write_sector`** replaces the data of the sector it is for, and warns of
nothing, wherever it is started. -/
theorem ibmFmWriteSector_spec (h : d.FmFormatted lead gap3 (pre ++ s :: post))
    (hother : ∀ s' ∈ pre ++ post, s'.idam ≠ s.idam) {resume : Nat → Nat}
    (hresume : d.FmTimely 8 resume) {fuel : Nat} (hfuel : d.size ≤ fuel) (m : Mem) (p₁ p₂ : Nat)
    {buf : List Byte} (hbuf : buf.length = s.idam.size) {g : Nat} (hg : g + (g + 1) % 2 ≤ gap3)
    (t : Nat) :
    ∃ w, ibmFmWriteSector d resume fuel m p₁ p₂ buf s.idam g t = some w ∧ w.warned = false ∧
      w.disk.size = d.size ∧ w.disk.FmFormatted lead gap3 (pre ++ ⟨s.idam, buf⟩ :: post) := by
  obtain ⟨-, hroom⟩ := h.mark_room (fmIdamMark_mem lead gap3 pre post s)
  obtain ⟨o, hlo, hhi, ho⟩ := exists_next
    (show 16 * (lead + fmSectorsLength gap3 pre) + 79 < d.size by omega) t
  have ho' : o % d.size + 17 = 16 * (lead + fmSectorsLength gap3 pre + 6) := by omega
  obtain ⟨hreported, hbits⟩ := ibmFmSectorBuffer_spec m p₁ g hbuf
  obtain ⟨m', hsearch⟩ := h.ibmFmSearch_spec hother hresume p₂ hhi ho' fuel t
    (ibmFmSectorBuffer m p₁ buf s.idam g).mem (Nat.le_refl t) hlo (by omega)
  have hstart : (o + 129 + 16 * fmGap2) % d.size =
      16 * (lead + fmSectorsLength gap3 pre + 24) := by
    rw [fmGap2, Nat.add_assoc, Nat.add_mod, ho, Nat.mod_eq_of_lt (a := 129 + _) (by omega),
      Nat.mod_eq_of_lt (by omega)]
    omega
  refine ⟨_, by rw [ibmFmWriteSector, hsearch]; rfl, ?_, rfl, ?_⟩
  · simp only [hreported]
    rfl
  · rw [hbits]
    exact h.splice hbuf hg hstart

end Disk.FmFormatted

/-! ## A disk -/

/-- An FM track, and a gap of `n` bitcells up to the index. -/
def fmDisk (lead gap3 : Nat) (secs : List Sector) (n : Nat) : Disk :=
  Disk.ofBits (((fmTrackItems lead gap3 secs).map FmItem.word).flatMap bitsOf ++
    List.replicate n true)

theorem fmDisk_formatted (lead gap3 : Nat) {secs : List Sector} {n : Nat} (hn : 31 ≤ n)
    (hdata : ∀ s ∈ secs, s.data.length = s.idam.size) :
    (fmDisk lead gap3 secs n).FmFormatted lead gap3 secs := by
  obtain ⟨ws, hws⟩ : ∃ ws, ws = (fmTrackItems lead gap3 secs).map FmItem.word := ⟨_, rfl⟩
  have hlen : (fmTrackItems lead gap3 secs).length = ws.length := by rw [hws, List.length_map]
  have hsize : (fmDisk lead gap3 secs n).size = 16 * ws.length + n := by
    rw [fmDisk, ← hws, Disk.ofBits, List.length_append, length_flatMap_bitsOf,
      List.length_replicate]
  have hcells : ∀ r, (fmDisk lead gap3 secs n).cells r =
      (ws.flatMap bitsOf ++ List.replicate n true).getD r false := by
    intro r
    rw [fmDisk, ← hws]
    rfl
  refine ⟨?_, fun r hr hout => ?_, by omega, hdata⟩
  · rw [← hws]
    intro r hr hin
    rw [hcells, List.getD_eq_getElem?_getD,
      List.getElem?_append_left (by rw [length_flatMap_bitsOf]; omega),
      getElem?_flatMap_bitsOf ws r hin]
    rfl
  · rw [hlen] at hout
    rw [hcells, List.getD_eq_getElem?_getD,
      List.getElem?_append_right (by rw [length_flatMap_bitsOf]; exact hout),
      List.getElem?_replicate, length_flatMap_bitsOf, if_pos (by omega)]
    rfl

/-! ## The store -/

/-- The sectors of a track, by what each of them holds. -/
def storedSectors (idams : List Idam) (c : Idam → List Byte) : List Sector :=
  idams.map fun i => ⟨i, c i⟩

/-- A track around one of its headers. -/
theorem storedSectors_split (c : Idam → List Byte) {idams : List Idam} (hnodup : idams.Nodup)
    {i : Idam} (hi : i ∈ idams) :
    ∃ pre post, storedSectors idams c = pre ++ ⟨i, c i⟩ :: post ∧
      (∀ s ∈ pre ++ post, s.idam ≠ i) ∧ ∀ buf,
        storedSectors idams (Function.update c i buf) = pre ++ ⟨i, buf⟩ :: post := by
  obtain ⟨a, b, rfl⟩ := List.append_of_mem hi
  have hnot : i ∉ a ++ b := (List.nodup_cons.mp (List.nodup_middle.mp hnodup)).1
  have hsame : ∀ (l : List Idam) buf, i ∉ l →
      storedSectors l (Function.update c i buf) = storedSectors l c := by
    intro l buf hl
    refine List.map_congr_left fun j hj => ?_
    have hne : j ≠ i := fun heq => hl (heq ▸ hj)
    rw [Function.update_of_ne hne]
  refine ⟨storedSectors a c, storedSectors b c, ?_, fun s hs => ?_, fun buf => ?_⟩
  · rw [storedSectors, List.map_append, List.map_cons]
    rfl
  · rw [storedSectors, storedSectors, ← List.map_append] at hs
    obtain ⟨j, hj, rfl⟩ := List.mem_map.mp hs
    exact fun heq => hnot (heq ▸ hj)
  · rw [← hsame a buf fun hmem => hnot (List.mem_append_left b hmem),
      ← hsame b buf fun hmem => hnot (List.mem_append_right a hmem), storedSectors,
      List.map_append, List.map_cons, Function.update_self]
    rfl

/-- A call of `ibm_fm_write_sector` for one of the headers of a track: what the sectors
hold behind it is what they held, but for the one that was written. -/
inductive FmSectorStore (idams : List Idam) (gap3 : Nat) :
    Disk × (Idam → List Byte) → Disk × (Idam → List Byte) → Prop where
  | write {d : Disk} {c : Idam → List Byte} {resume : Nat → Nat} {fuel : Nat} {m : Mem}
      {p₁ p₂ : Nat} {buf : List Byte} {i : Idam} {g t : Nat} {w : SectorWrite} :
      i ∈ idams → buf.length = i.size → g + (g + 1) % 2 ≤ gap3 → d.FmTimely 8 resume →
      d.size ≤ fuel → ibmFmWriteSector d resume fuel m p₁ p₂ buf i g t = some w →
      FmSectorStore idams gap3 (d, c) (w.disk, Function.update c i buf)

section Store

variable {idams : List Idam} {lead gap3 : Nat}

/-- A write keeps the track, and what its other sectors hold. -/
theorem FmSectorStore.formatted (hnodup : idams.Nodup) {st st' : Disk × (Idam → List Byte)}
    (hstep : FmSectorStore idams gap3 st st')
    (h : st.1.FmFormatted lead gap3 (storedSectors idams st.2)) :
    st'.1.FmFormatted lead gap3 (storedSectors idams st'.2) := by
  cases hstep with
  | @write d c resume fuel m p₁ p₂ buf i g t w hi hbuf hg hresume hfuel hwrite =>
    obtain ⟨pre, post, hsecs, hother, hnew⟩ := storedSectors_split c hnodup hi
    rw [hsecs] at h
    obtain ⟨w', hwrite', -, -, hformatted⟩ :=
      h.ibmFmWriteSector_spec hother hresume hfuel m p₁ p₂ hbuf hg t
    rw [hwrite] at hwrite'
    rw [hnew, Option.some.inj hwrite']
    exact hformatted

end Store

/-- **An FM track is a store.**  After any sequence of sector writes, each of which returns
and warns of nothing, a read of any sector, started anywhere, returns what was last
written to it, or what it held before, and warns of nothing; and a scan finds the headers
of the track. -/
theorem fm_sector_store {idams : List Idam} (hne : idams ≠ []) (hnodup : idams.Nodup)
    {lead gap3 : Nat} {d₀ d : Disk} {c₀ c : Idam → List Byte}
    (h₀ : d₀.FmFormatted lead gap3 (storedSectors idams c₀))
    (hrun : Relation.ReflTransGen (FmSectorStore idams gap3) (d₀, c₀) (d, c))
    {resume : Nat → Nat} (hresume : d.FmTimely 8 resume) {fuel : Nat} (hfuel : d.size ≤ fuel)
    (m : Mem) (p₁ p₂ : Nat) :
    (∀ i ∈ idams, ∀ t, ibmFmReadSector d resume fuel m p₁ p₂ i t = some ⟨c i, false⟩) ∧
    (∀ i ∈ idams, ∀ buf g t, buf.length = i.size → g + (g + 1) % 2 ≤ gap3 →
      ∃ w, ibmFmWriteSector d resume fuel m p₁ p₂ buf i g t = some w ∧ w.warned = false) ∧
    ∀ start max ticksPerCell indexTimestamp t, t ≤ 16 * lead + 79 →
      ∃ r, ibmFmScan d resume start fuel m p₁ max ticksPerCell indexTimestamp t = some r ∧
        r.count = idams.length ∧ r.info.map ScanInfo.idam = (idams.map Idam.bytes).take max := by
  have h : d.FmFormatted lead gap3 (storedSectors idams c) :=
    run_invariant (P := fun st => st.1.FmFormatted lead gap3 (storedSectors idams st.2))
      (fun _ _ hstep => hstep.formatted hnodup) hrun h₀
  refine ⟨fun i hi t => ?_, fun i hi buf g t hbuf hg => ?_, fun start max ticks ts t ht => ?_⟩
  · obtain ⟨pre, post, hsecs, hother, -⟩ := storedSectors_split c hnodup hi
    rw [hsecs] at h
    exact h.ibmFmReadSector_spec hother hresume hfuel m p₁ p₂ t
  · obtain ⟨pre, post, hsecs, hother, -⟩ := storedSectors_split c hnodup hi
    rw [hsecs] at h
    obtain ⟨w, hwrite, hwarned, -⟩ :=
      h.ibmFmWriteSector_spec hother hresume hfuel m p₁ p₂ hbuf hg t
    exact ⟨w, hwrite, hwarned⟩
  · have hlen : (storedSectors idams c).length = idams.length := List.length_map _
    refine ⟨_, h.ibmFmScan_records (List.map_eq_nil_iff.not.mpr hne) hresume start m p₁ max ticks
      ts (Nat.lt_of_lt_of_le h.two_mul_lt hfuel) ht, hlen, ?_⟩
    rw [List.map_take, Disk.FmFormatted.map_idam_fmHeaders, storedSectors, List.map_map]
    rfl

/-- A track with one sector, written once and read back. -/
theorem fm_sector_store_one_write :
    ∃ d c, Relation.ReflTransGen (FmSectorStore [fmOneSector] 27)
        (fmDisk 40 27 [⟨fmOneSector, List.replicate 128 0xe5⟩] 40,
          fun _ => List.replicate 128 0xe5) (d, c) ∧
      ibmFmReadSector d id d.size (fun _ => 0) 0 4096 fmOneSector 77 =
        some ⟨List.replicate 128 0x55, false⟩ := by
  have hid : ∀ d : Disk, d.FmTimely 8 id :=
    fun _ _ _ => ⟨Nat.le_refl _, fun _ hle hlt => absurd hlt (Nat.not_lt_of_le hle)⟩
  have hne : [fmOneSector] ≠ [] := List.cons_ne_nil _ _
  have hmem : fmOneSector ∈ [fmOneSector] := List.mem_singleton_self _
  have hbuf : (List.replicate 128 (0x55 : Byte)).length = fmOneSector.size :=
    List.length_replicate
  have hgap : 12 + (12 + 1) % 2 ≤ 27 := by decide
  have h₀ : (fmDisk 40 27 [⟨fmOneSector, List.replicate 128 0xe5⟩] 40).FmFormatted 40 27
      (storedSectors [fmOneSector] fun _ => List.replicate 128 0xe5) := by
    refine fmDisk_formatted 40 27 (by decide) fun s hs => ?_
    rw [List.mem_singleton.mp hs]
    exact List.length_replicate
  obtain ⟨w, hwrite, -⟩ := (fm_sector_store hne (by decide) h₀ .refl (hid _) (Nat.le_refl _)
    (fun _ => 0) 0 4096).2.1 fmOneSector hmem _ 12 5 hbuf hgap
  have hrun := Relation.ReflTransGen.single (FmSectorStore.write
    (c := fun _ => List.replicate 128 0xe5) hmem hbuf hgap (hid _) (Nat.le_refl _) hwrite)
  refine ⟨_, _, hrun, ?_⟩
  rw [(fm_sector_store hne (by decide) h₀ hrun (hid _) (Nat.le_refl _) (fun _ => 0) 0 4096).1
    fmOneSector hmem 77, Function.update_self]

end FlashFloppyTestbed
