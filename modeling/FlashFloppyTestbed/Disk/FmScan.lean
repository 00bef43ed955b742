/-
  Disk/FmScan.lean --- `ibm_fm_search`, `ibm_fm_read_sector` and `ibm_fm_scan` on an FM
  track.

  From one mark on, the track says which one is met next: behind a header its data
  field (`FmFormatted.next_dam`), behind a data field the next header, which may be
  that of the next revolution (`FmFormatted.next_header`).  A program that reads on
  in time meets them in that order, so that a search ends at the header it is for
  (`FmFormatted.ibmFmSearch_spec`), a sector read returns what is laid out there
  (`FmFormatted.ibmFmReadSector_spec`), and a scan takes the headers and no more
  (`FmFormatted.ibmFmScan_records`).
-/
import FlashFloppyTestbed.Disk.FmTrack
import FlashFloppyTestbed.Disk.Search

set_option autoImplicit false

namespace FlashFloppyTestbed

open FlashFloppyTestbed.Foundation FlashFloppyTestbed.Floppy

namespace Disk

/-- Behind each read of `n` words that has met a mark, the next one begins in time. -/
def FmTimely (d : Disk) (n : Nat) (resume : Nat → Nat) : Prop :=
  InTime d.FmSyncAt (16 * n + 1) resume

/-- The position at which a scan that has passed the sectors `pre` meets the next
header, which may be the first one of the next revolution. -/
def nextFmHeader (d : Disk) (lead gap3 : Nat) (pre post : List Sector) : Nat :=
  match post with
  | [] => d.size + 16 * lead + 79
  | _ :: _ => 16 * (lead + fmSectorsLength gap3 pre) + 79

namespace FmFormatted

variable {d : Disk} {lead gap3 : Nat} {pre post : List Sector} {s : Sector}

/-! ## Which mark is met next -/

theorem fmSyncAt_idam (h : d.FmFormatted lead gap3 (pre ++ s :: post)) {o : Nat}
    (ho : o % d.size + 17 = 16 * (lead + fmSectorsLength gap3 pre + 6)) : d.FmSyncAt o :=
  (h.fmSyncAt_iff o).mpr ⟨_, fmIdamMark_mem lead gap3 pre post s, ho⟩

/-- **Behind a header** the mark of its data field is met. -/
theorem next_dam (h : d.FmFormatted lead gap3 (pre ++ s :: post)) {o : Nat}
    (ho : o % d.size + 17 = 16 * (lead + fmSectorsLength gap3 pre + 6)) :
    FirstFrom d.FmSyncAt (o + 129) (o + 384) ∧
      (o + 384) % d.size + 17 = 16 * (lead + fmSectorsLength gap3 pre + 30) := by
  have hdam := fmDamMark_mem lead gap3 pre post s
  obtain ⟨-, hroom⟩ := h.mark_room hdam
  have hstep : ∀ k, k ≤ 384 → (o + k) % d.size = o % d.size + k := by
    intro k hk
    rw [Nat.add_mod, Nat.mod_eq_of_lt (a := k) (by omega), Nat.mod_eq_of_lt (by omega)]
  have hmod : (o + 384) % d.size + 17 = 16 * (lead + fmSectorsLength gap3 pre + 30) := by
    rw [hstep 384 (Nat.le_refl _)]
    omega
  refine ⟨⟨(h.fmSyncAt_iff _).mpr ⟨_, hdam, hmod⟩, by omega, fun o' hlo hhi => ?_⟩, hmod⟩
  rw [h.fmSyncAt_iff]
  rintro ⟨c, hc, hpos⟩
  obtain ⟨k, rfl⟩ : ∃ k, o' = o + k := ⟨o' - o, by omega⟩
  rw [hstep k (by omega)] at hpos
  have hfrom := fmMarks_from hc (by omega)
  rw [fmSectorsLength_append, fmSectorsLength_cons, fmSectorsLength_nil] at hfrom
  omega

theorem fmSyncAt_nextFmHeader (h : d.FmFormatted lead gap3 (pre ++ post))
    (hne : pre ++ post ≠ []) : d.FmSyncAt (nextFmHeader d lead gap3 pre post) := by
  cases post with
  | nil =>
    rw [List.append_nil] at hne
    obtain ⟨s, rest, rfl⟩ := List.exists_cons_of_ne_nil hne
    rw [List.append_nil] at h
    obtain ⟨-, hroom⟩ := h.mark_room (fmIdamMark_mem lead gap3 [] rest s)
    rw [fmSectorsLength_nil] at hroom
    refine fmSyncAt_idam (show d.FmFormatted lead gap3 ([] ++ s :: rest) from h) ?_
    rw [nextFmHeader, Nat.add_assoc, Nat.add_mod_left, Nat.mod_eq_of_lt (by omega),
      fmSectorsLength_nil]
    omega
  | cons s post =>
    obtain ⟨-, hroom⟩ := h.mark_room (fmIdamMark_mem lead gap3 pre post s)
    refine h.fmSyncAt_idam ?_
    rw [nextFmHeader, Nat.mod_eq_of_lt (by omega)]
    omega

/-- **Behind a data field** the mark of the next header is met. -/
theorem next_header (h : d.FmFormatted lead gap3 (pre ++ s :: post)) :
    FirstFrom d.FmSyncAt (16 * (lead + fmSectorsLength gap3 pre) + 463 + 129)
      (nextFmHeader d lead gap3 (pre ++ [s]) post) := by
  have hge := h.size_ge
  rw [length_fmTrackItems, fmSectorsLength_append, fmSectorsLength_cons] at hge
  have hlong := s.idam.le_size
  have hdata := h.data s (by simp)
  have hlen : fmSectorsLength gap3 (pre ++ [s]) =
      fmSectorsLength gap3 pre + (s.data.length + gap3 + 33) := by
    rw [fmSectorsLength_append, fmSectorsLength_cons, fmSectorsLength_nil, Nat.add_zero]
  have hnext : 16 * (lead + fmSectorsLength gap3 pre) + 463 + 129 ≤
      nextFmHeader d lead gap3 (pre ++ [s]) post := by
    cases post with
    | nil =>
      rw [nextFmHeader]
      omega
    | cons s' post =>
      rw [nextFmHeader, hlen]
      omega
  have hsync := h
  rw [List.append_cons] at hsync
  refine ⟨hsync.fmSyncAt_nextFmHeader (by simp), hnext, fun o hlo hhi => ?_⟩
  rw [h.fmSyncAt_iff]
  rintro ⟨c, hc, hpos⟩
  obtain ⟨hfirst, -⟩ := h.mark_room hc
  have hfrom := fun hge => fmMarks_from hc hge
  rcases Nat.lt_or_ge o d.size with hin | hout
  · rw [Nat.mod_eq_of_lt hin] at hpos
    rcases hfrom (by omega) with hc' | hc' | ⟨hc', hne⟩
    · omega
    · omega
    · cases post with
      | nil => exact hne rfl
      | cons s' post =>
        rw [nextFmHeader] at hhi
        omega
  · cases post with
    | nil =>
      rw [nextFmHeader] at hhi
      rw [Nat.mod_eq_sub_mod hout, Nat.mod_eq_of_lt (by omega)] at hpos
      omega
    | cons s' post =>
      have hmem := fmIdamMark_mem lead gap3 (pre ++ [s]) post s'
      rw [← List.append_cons] at hmem
      obtain ⟨-, hroom'⟩ := h.mark_room hmem
      rw [nextFmHeader] at hhi
      omega

/-- From the index on the first header is met. -/
theorem first_header (h : d.FmFormatted lead gap3 post) (hne : post ≠ []) {t : Nat}
    (ht : t ≤ nextFmHeader d lead gap3 [] post) :
    FirstFrom d.FmSyncAt t (nextFmHeader d lead gap3 [] post) := by
  refine ⟨fmSyncAt_nextFmHeader (show d.FmFormatted lead gap3 ([] ++ post) from h) hne, ht,
    fun o _ hhi => ?_⟩
  rw [h.fmSyncAt_iff]
  rintro ⟨c, hc, hpos⟩
  obtain ⟨hfirst, hroom⟩ := h.mark_room hc
  obtain ⟨s, rest, rfl⟩ := List.exists_cons_of_ne_nil hne
  rw [nextFmHeader, fmSectorsLength_nil] at hhi
  rw [Nat.mod_eq_of_lt (by omega)] at hpos
  omega

/-! ## The search -/

/-- Marks that are met one behind the other are at least a header apart. -/
theorem apart (h : d.FmFormatted lead gap3 (pre ++ s :: post)) {o o' : Nat}
    (ho : o % d.size + 17 = 16 * (lead + fmSectorsLength gap3 pre + 6)) (hsync : d.FmSyncAt o')
    (hlt : o' < o) : o' + 129 ≤ o := by
  by_contra hnear
  have hidam := fmIdamMark_mem lead gap3 pre post s
  obtain ⟨c, hc, hpos⟩ := (h.fmSyncAt_iff o').mp hsync
  obtain ⟨hfirst, hroom⟩ := h.mark_room hc
  have hapart := fmMarks_apart hidam hc
  have hstep := mod_of_le d.size (Nat.le_of_lt hlt) (by omega)
  omega

/-- **What a search rejects**: a mark other than that of the header it is for. -/
theorem search_reject (h : d.FmFormatted lead gap3 (pre ++ s :: post))
    (hother : ∀ s' ∈ pre ++ post, s'.idam ≠ s.idam) {t o : Nat} (m : Mem) (p : Nat)
    (hfirst : FirstFrom d.FmSyncAt t o)
    (ho : o % d.size + 17 ≠ 16 * (lead + fmSectorsLength gap3 pre + 6)) :
    ∃ m', d.floppyReadFm m p 8 t = some (m', o + 1) ∧
      (fmToBin m' p 8 (p + 1) ≠ 0xfe ∨ (fmToBin m' p 8).bytes (p + 2) 4 ≠ s.idam.bytes) := by
  obtain ⟨c, hc, hpos⟩ := (h.fmSyncAt_iff o).mp hfirst.1
  rw [fmMarks_fmTrackItems, mem_fmMarks_sectors] at hc
  obtain ⟨pre', s', post', heq, rfl | rfl⟩ := hc
  · -- the header of another sector
    have hne : s'.idam ≠ s.idam := by
      have hdiff : pre'.length ≠ pre.length := by
        intro hlen
        obtain ⟨rfl, _⟩ := List.append_inj heq hlen.symm
        exact ho hpos
      have hget : (pre ++ s :: post)[pre'.length]? = some s' := by
        rw [heq, List.getElem?_append_right (Nat.le_refl _), Nat.sub_self]
        rfl
      refine hother s' ?_
      rcases Nat.lt_or_gt_of_ne hdiff with hlt | hgt
      · rw [List.getElem?_append_left hlt] at hget
        exact List.mem_append_left _ (List.mem_of_getElem? hget)
      · obtain ⟨k, hk⟩ : ∃ k, pre'.length - pre.length = k + 1 :=
          ⟨pre'.length - pre.length - 1, by omega⟩
        rw [List.getElem?_append_right (Nat.le_of_lt hgt), hk, List.getElem?_cons_succ] at hget
        exact List.mem_append_right _ (List.mem_of_getElem? hget)
    rw [heq] at h
    obtain ⟨m', hread, -, hbytes, -⟩ := h.read_header m p hfirst hpos
    refine ⟨m', hread, .inr ?_⟩
    rw [hbytes]
    exact fun hsame => hne (Idam.bytes_injective hsame)
  · rw [heq] at h
    obtain ⟨m', hread, hmark⟩ := h.read_dam m p hfirst hpos
    exact ⟨m', hread, .inl hmark⟩

/-- **The loop of `ibm_fm_search`** ends at the first header it is for, which lies within a
revolution of its start. -/
theorem ibmFmSearch_spec (h : d.FmFormatted lead gap3 (pre ++ s :: post))
    (hother : ∀ s' ∈ pre ++ post, s'.idam ≠ s.idam) {resume : Nat → Nat}
    (hresume : d.FmTimely 8 resume) (p : Nat) {t₀ o : Nat} (hnear : o < t₀ + d.size)
    (ho : o % d.size + 17 = 16 * (lead + fmSectorsLength gap3 pre + 6)) :
    ∀ (fuel t : Nat) (m : Mem), t₀ ≤ t → t ≤ o → o < t + fuel →
      ∃ m', ibmFmSearch d resume p s.idam t₀ fuel t m false = some ⟨m', o + 129, false⟩ := by
  refine hresume.search_rule (by decide) (h.fmSyncAt_idam ho)
    (fun o' hsync hlt => h.apart ho hsync hlt) (fun fuel t m ht₀ hfirst => ?_)
    fun fuel t m o' ht₀ hfirst hlt ih => ?_
  · obtain ⟨m', hread, hmark, hbytes, hcrc⟩ := h.read_header m p hfirst ho
    refine ⟨fmToBin m' p 8, ?_⟩
    rw [ibmFmSearch, Disk.not_two_indexes hfirst.2.1 hnear, hread]
    refine if_neg ?_
    rintro (hne | hne | hne)
    · exact hne hmark
    · exact hne hbytes
    · exact hne hcrc
  · have hne : o' % d.size + 17 ≠ 16 * (lead + fmSectorsLength gap3 pre + 6) := by
      intro hmod
      have hstep := mod_of_le d.size (Nat.le_of_lt hlt) (by have hle := hfirst.2.1; omega)
      have hle := hfirst.2.1
      omega
    obtain ⟨m', hread, hreject⟩ := h.search_reject hother m p hfirst hne
    obtain ⟨m'', hrest⟩ := ih (fmToBin m' p 8)
    refine ⟨m'', ?_⟩
    have hle : t ≤ o := Nat.le_trans hfirst.2.1 (Nat.le_of_lt hlt)
    rw [ibmFmSearch, Disk.not_two_indexes hle hnear, hread]
    exact (if_pos (hreject.imp id .inl)).trans hrest

/-- **`ibm_fm_read_sector`** returns the data of the sector it is for, and warns of
nothing, wherever it is started. -/
theorem ibmFmReadSector_spec (h : d.FmFormatted lead gap3 (pre ++ s :: post))
    (hother : ∀ s' ∈ pre ++ post, s'.idam ≠ s.idam) {resume : Nat → Nat}
    (hresume : d.FmTimely 8 resume) {fuel : Nat} (hfuel : d.size ≤ fuel) (m : Mem)
    (p₁ p₂ t : Nat) :
    ibmFmReadSector d resume fuel m p₁ p₂ s.idam t = some ⟨s.data, false⟩ := by
  obtain ⟨-, hroom⟩ := h.mark_room (fmIdamMark_mem lead gap3 pre post s)
  have hdata : s.data.length = s.idam.size := h.data s (by simp)
  -- the header
  obtain ⟨o, hlo, hhi, ho⟩ := exists_next
    (show 16 * (lead + fmSectorsLength gap3 pre) + 79 < d.size by omega) t
  have ho : o % d.size + 17 = 16 * (lead + fmSectorsLength gap3 pre + 6) := by omega
  obtain ⟨m₁, hsearch⟩ := h.ibmFmSearch_spec hother hresume p₁ hhi ho fuel t m
    (Nat.le_refl t) hlo (by omega)
  -- the data field behind it
  obtain ⟨hnext, hdam⟩ := h.next_dam ho
  have hfirst := InTime.firstFrom hresume (h.fmSyncAt_idam ho) hnext
  rw [ibmFmReadSector_eq hsearch (h.findFmSync_eq hfirst)]
  have hwords := (d.stream_eq_fmRecordWords_iff m₁ p₂ (o + 384) hdata).mp (h.stream_data hdam)
  have hread := ibmFmCheckDam_data hdata hwords
  have hclock := Disk.fmDamBuffer_clock hfirst.1 m₁ p₂ s.idam
  have hclean := (ibmFmCheckDam_accepts hclock).mpr (by rw [hread]; exact hwords)
  rw [hread, hclean]
  rfl

/-! ## The scan -/

section Loop

variable {resume : Nat → Nat} {start : Nat → BitVec 32} {p max : Nat}
  {indexTimestamp : BitVec 32} {fuel t o i : Nat} {m m' : Mem} {info : List ScanInfo}

/-- One pass of the loop that meets a header. -/
theorem scan_header (hread : d.floppyReadFm m p 8 t = some (m', o + 1)) (hin : o + 129 < d.size)
    (hmark : fmToBin m' p 8 (p + 1) = 0xfe)
    (hcrc : crc16Ccitt ((fmToBin m' p 8).bytes (p + 1) 7) 0xffff = 0) :
    ibmFmScanLoop d resume start p max indexTimestamp (fuel + 1) t m i info =
      ibmFmScanLoop d resume start p max indexTimestamp fuel (resume (o + 129)) (fmToBin m' p 8)
        (i + 1) (if i < max then
          info ++ [⟨(fmToBin m' p 8).bytes (p + 2) 4, start (o + 1) - indexTimestamp⟩]
          else info) := by
  have hcount : ¬ 1 + d.indexCount 0 (o + 1 + 128) ≠ 1 := by
    rw [Disk.indexCount, Nat.div_eq_of_lt hin]
    simp
  have hheader : ¬ (fmToBin m' p 8 (p + 1) ≠ 0xfe ∨
      crc16Ccitt ((fmToBin m' p 8).bytes (p + 1) 7) 0xffff ≠ 0) := by
    rw [hmark, hcrc]
    simp
  rw [ibmFmScanLoop, hread]
  exact (if_neg hcount).trans (if_neg hheader)

/-- One pass of the loop that meets something else. -/
theorem scan_other (hread : d.floppyReadFm m p 8 t = some (m', o + 1)) (hin : o + 129 < d.size)
    (hother : fmToBin m' p 8 (p + 1) ≠ 0xfe) :
    ibmFmScanLoop d resume start p max indexTimestamp (fuel + 1) t m i info =
      ibmFmScanLoop d resume start p max indexTimestamp fuel (resume (o + 129)) (fmToBin m' p 8)
        i info := by
  have hcount : ¬ 1 + d.indexCount 0 (o + 1 + 128) ≠ 1 := by
    rw [Disk.indexCount, Nat.div_eq_of_lt hin]
    simp
  rw [ibmFmScanLoop, hread]
  exact (if_neg hcount).trans (if_pos (.inl hother))

/-- The pass of the loop that ends behind the next index pulse. -/
theorem scan_end (hread : d.floppyReadFm m p 8 t = some (m', o + 1)) (hpos : 0 < d.size)
    (hin : d.size ≤ o + 129) :
    ibmFmScanLoop d resume start p max indexTimestamp (fuel + 1) t m i info = some (i, info) := by
  have hcount : 1 + d.indexCount 0 (o + 1 + 128) ≠ 1 := by
    have hge : 1 ≤ (o + 129) / d.size := (Nat.one_le_div_iff hpos).mpr hin
    show 1 + ((o + 129) / d.size - 0 / d.size) ≠ 1
    rw [Nat.zero_div]
    omega
  rw [ibmFmScanLoop, hread]
  exact if_pos hcount

end Loop

/-- What a scan that has passed the sectors `pre` stores for the headers of `post`: a read
starts a word in front of the mark. -/
def fmHeaders (lead gap3 : Nat) (start : Nat → BitVec 32) (indexTimestamp : BitVec 32) :
    List Sector → List Sector → List ScanInfo
  | _, [] => []
  | pre, s :: post =>
      ⟨s.idam.bytes, start (16 * (lead + fmSectorsLength gap3 pre + 5)) - indexTimestamp⟩ ::
        fmHeaders lead gap3 start indexTimestamp (pre ++ [s]) post

theorem map_idam_fmHeaders (lead gap3 : Nat) (start : Nat → BitVec 32)
    (indexTimestamp : BitVec 32) (post : List Sector) : ∀ pre,
      (fmHeaders lead gap3 start indexTimestamp pre post).map ScanInfo.idam =
        post.map fun s => s.idam.bytes := by
  induction post with
  | nil => exact fun _ => rfl
  | cons s post ih =>
    intro pre
    rw [fmHeaders, List.map_cons, ih, List.map_cons]

/-- **Two passes of the loop**, the first of which meets the header of a sector: it is
counted, and stored if there is room; what the data field yields is passed over. -/
theorem scan_sector (h : d.FmFormatted lead gap3 (pre ++ s :: post)) {resume : Nat → Nat}
    (hresume : d.FmTimely 8 resume) (start : Nat → BitVec 32) (p max : Nat)
    (indexTimestamp : BitVec 32) (fuel : Nat) {t : Nat} (m : Mem) (i : Nat)
    (info : List ScanInfo)
    (hfirst : FirstFrom d.FmSyncAt t (nextFmHeader d lead gap3 pre (s :: post))) :
    ∃ m' t', ibmFmScanLoop d resume start p max indexTimestamp (fuel + 1 + 1) t m i info =
        ibmFmScanLoop d resume start p max indexTimestamp fuel t' m' (i + 1)
          (if i < max then info ++ [⟨s.idam.bytes,
            start (16 * (lead + fmSectorsLength gap3 pre + 5)) - indexTimestamp⟩] else info) ∧
      FirstFrom d.FmSyncAt t' (nextFmHeader d lead gap3 (pre ++ [s]) post) := by
  obtain ⟨-, hroom⟩ := h.mark_room (fmDamMark_mem lead gap3 pre post s)
  obtain ⟨o, ho⟩ : ∃ o, o = nextFmHeader d lead gap3 pre (s :: post) := ⟨_, rfl⟩
  have hpos : o = 16 * (lead + fmSectorsLength gap3 pre) + 79 := ho
  rw [← ho] at hfirst
  have homod : o % d.size + 17 = 16 * (lead + fmSectorsLength gap3 pre + 6) := by
    rw [Nat.mod_eq_of_lt (by omega)]
    omega
  -- the header
  obtain ⟨m₁, hread₁, hmark, hbytes, hcrc⟩ := h.read_header m p hfirst homod
  rw [scan_header hread₁ (by omega) hmark hcrc, hbytes]
  -- the data field
  obtain ⟨hnext, hdam⟩ := h.next_dam homod
  have hfirst₂ := InTime.firstFrom hresume hfirst.1 hnext
  obtain ⟨m₂, hread₂, hother⟩ := h.read_dam (fmToBin m₁ p 8) p hfirst₂ hdam
  rw [scan_other hread₂ (by omega) hother]
  -- the header behind it
  have hbehind := h.next_header
  rw [show 16 * (lead + fmSectorsLength gap3 pre) + 463 = o + 384 by omega] at hbehind
  rw [show 16 * (lead + fmSectorsLength gap3 pre + 5) = o + 1 by omega]
  exact ⟨_, _, rfl, InTime.firstFrom hresume hnext.1 hbehind⟩

/-- **The loop of `ibm_fm_scan`**, from a position in front of the next header on, counts
the sectors, and stores their headers with the times of their marks. -/
theorem ibmFmScanLoop_spec {resume : Nat → Nat} (hresume : d.FmTimely 8 resume)
    (start : Nat → BitVec 32) (p max : Nat) (indexTimestamp : BitVec 32) :
    ∀ (post pre : List Sector), d.FmFormatted lead gap3 (pre ++ post) →
    ∀ (fuel t : Nat) (m : Mem) (i : Nat) (info : List ScanInfo), 2 * post.length < fuel →
      FirstFrom d.FmSyncAt t (nextFmHeader d lead gap3 pre post) →
      ibmFmScanLoop d resume start p max indexTimestamp fuel t m i info =
        some (i + post.length,
          info ++ (fmHeaders lead gap3 start indexTimestamp pre post).take (max - i)) := by
  intro post
  induction post with
  | nil =>
    intro pre h fuel t m i info hfuel hfirst
    obtain ⟨fuel, rfl⟩ : ∃ f, fuel = f + 1 := ⟨fuel - 1, by omega⟩
    rw [fmHeaders, List.take_nil, List.append_nil]
    exact scan_end (by rw [Disk.floppyReadFm, h.findFmSync_eq hfirst]; rfl) h.size_pos
      (by rw [nextFmHeader]; omega)
  | cons s post ih =>
    intro pre h fuel t m i info hfuel hfirst
    rw [List.length_cons] at hfuel
    obtain ⟨fuel, rfl⟩ : ∃ f, fuel = f + 1 + 1 := ⟨fuel - 2, by omega⟩
    obtain ⟨m', t', hpass, hnext⟩ :=
      h.scan_sector hresume start p max indexTimestamp fuel m i info hfirst
    rw [List.append_cons] at h
    rw [hpass, ih (pre ++ [s]) h fuel t' m' (i + 1) _ (by omega) hnext,
      Disk.Formatted.store_take, fmHeaders, List.length_cons]
    congr 2
    omega

/-- **`ibm_fm_scan`** of an FM track, started at the index, stores the headers of its
sectors, with the times of their marks. -/
theorem ibmFmScan_records (h : d.FmFormatted lead gap3 post) (hne : post ≠ [])
    {resume : Nat → Nat} (hresume : d.FmTimely 8 resume) (start : Nat → BitVec 32) {fuel : Nat}
    (m : Mem) (p max : Nat) (ticksPerCell indexTimestamp : BitVec 32) {t : Nat}
    (hfuel : 2 * post.length < fuel) (ht : t ≤ 16 * lead + 79) :
    ibmFmScan d resume start fuel m p max ticksPerCell indexTimestamp t =
      some ⟨post.length, (fmHeaders lead gap3 start indexTimestamp [] post).take max,
        fmScanGap3 ticksPerCell max post.length
          ((fmHeaders lead gap3 start indexTimestamp [] post).take max)⟩ := by
  have hnext : nextFmHeader d lead gap3 [] post = 16 * lead + 79 := by
    obtain ⟨s, rest, rfl⟩ := List.exists_cons_of_ne_nil hne
    rfl
  have hloop := ibmFmScanLoop_spec hresume start p max indexTimestamp post [] h fuel t m 0 [] hfuel
    (h.first_header hne (by rw [hnext]; exact ht))
  rw [ibmFmScan, hloop]
  simp only [Option.map_some, Nat.zero_add, List.nil_append, Nat.sub_zero]

end FmFormatted

end Disk

end FlashFloppyTestbed
