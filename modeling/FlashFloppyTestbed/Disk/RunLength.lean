/-
  Disk/RunLength.lean --- the run-length law of MFM: between two set bitcells there are
  one, two or three clear ones.

  What is carried from word to word is the number of clear bitcells behind the last set
  one.  The last data bit of a word leaves one value of it, if it is set, and two, if it is
  clear (`Behind`), and from each of them the next word, code word or sync word, keeps the
  law (`gapsFrom_mfmWord`, `gapsFrom_syncWord`).  The three generators hand nothing but
  such words to the write path, which turns gaps into reload values
  (`mfm_write_run_length`).
-/
import FlashFloppyTestbed.Disk.AmigaCode
import FlashFloppyTestbed.Disk.Format
import FlashFloppyTestbed.Floppy.RoundTrip

set_option autoImplicit false

namespace FlashFloppyTestbed

open FlashFloppyTestbed.Foundation FlashFloppyTestbed.Floppy

/-- Any two consecutive set bitcells are 2, 3 or 4 bitcells apart. -/
def RunLength (cells : List Bool) : Prop := ∀ g ∈ (gaps cells).tail, 2 ≤ g ∧ g ≤ 4

/-! ## Words -/

/-- The clear bitcells behind the last set one, where `y` is the last data bit. -/
def Behind (y : Bool) (r : Nat) : Prop := if y then r = 0 else 1 ≤ r ∧ r ≤ 2

instance (y : Bool) (r : Nat) : Decidable (Behind y r) :=
  inferInstanceAs (Decidable (if y then r = 0 else 1 ≤ r ∧ r ≤ 2))

theorem Behind.lt {y : Bool} {r : Nat} (h : Behind y r) : r < 3 := by
  cases y with
  | false => exact Nat.lt_succ_of_le h.2
  | true => exact Nat.lt_of_le_of_lt (Nat.le_of_eq h) (by decide)

/-- A code word keeps the law. -/
theorem gapsFrom_mfmWord : ∀ (x : Byte) (y : Bool) (r : Fin 3), Behind y r →
    (∀ g ∈ gapsFrom r (bitsOf (mfmWord y x)), 2 ≤ g ∧ g ≤ 4) ∧
      Behind (x.getLsbD 0) (runFrom r (bitsOf (mfmWord y x))) := by
  decide +kernel

/-- So does a sync word. -/
theorem gapsFrom_syncWord : ∀ (y : Bool) (r : Fin 3), Behind y r →
    (∀ g ∈ gapsFrom r (bitsOf syncWord), 2 ≤ g ∧ g ≤ 4) ∧
      Behind true (runFrom r (bitsOf syncWord)) := by
  decide +kernel

/-- **Code words and sync words** keep the law, in any order. -/
theorem Coded.gapsFrom {y : Bool} {l : List Item} {ws : List (BitVec 16)} (h : Coded y l ws)
    (hplain : ∀ it ∈ l, it.tag ≠ .seam) {r : Nat} (hr : Behind y r) :
    ∀ g ∈ gapsFrom r (ws.flatMap bitsOf), 2 ≤ g ∧ g ≤ 4 := by
  induction h generalizing r with
  | nil => exact fun g hg => absurd hg List.not_mem_nil
  | @cons y it w l ws hw _ ih =>
    have hword : (∀ g ∈ Foundation.gapsFrom r (bitsOf w), 2 ≤ g ∧ g ≤ 4) ∧
        Behind (it.byte.getLsbD 0) (runFrom r (bitsOf w)) := by
      have htag := hplain it List.mem_cons_self
      unfold WordOk at hw
      split at hw
      · rw [hw]
        exact gapsFrom_mfmWord it.byte y ⟨r, hr.lt⟩ hr
      · rename_i hseam
        exact absurd hseam htag
      · rw [hw.1, hw.2]
        exact gapsFrom_syncWord y ⟨r, hr.lt⟩ hr
    have hrest := ih (fun it' hit => hplain it' (List.mem_cons_of_mem it hit)) hword.2
    intro g hg
    rw [List.flatMap_cons, gapsFrom_append, List.mem_append] at hg
    exact hg.elim (hword.1 g) (hrest g)

/-- In front of the first word there may be anything. -/
theorem Coded.gaps {y : Bool} {l : List Item} {ws : List (BitVec 16)} (h : Coded y l ws)
    (hplain : ∀ it ∈ l, it.tag ≠ .seam) :
    RunLength (ws.flatMap bitsOf) ∧ ∀ g ∈ Foundation.gaps (ws.flatMap bitsOf), g ≤ 4 := by
  obtain ⟨r, hr⟩ : ∃ r, Behind y r := by
    cases y with
    | false => exact ⟨1, by decide⟩
    | true => exact ⟨0, by decide⟩
  have hall := h.gapsFrom hplain hr
  rw [← Nat.zero_add r, gapsFrom_add] at hall
  rw [RunLength, Foundation.gaps]
  generalize Foundation.gapsFrom 0 (ws.flatMap bitsOf) = gs at hall
  cases gs with
  | nil => exact ⟨fun g hg => absurd hg List.not_mem_nil, fun g hg => absurd hg List.not_mem_nil⟩
  | cons g₀ gs =>
    rw [List.modifyHead_cons] at hall
    refine ⟨fun g hg => hall g (List.mem_cons_of_mem _ hg), fun g hg => ?_⟩
    rcases List.mem_cons.mp hg with rfl | hg
    · have hfirst := hall _ List.mem_cons_self
      omega
    · exact (hall g (List.mem_cons_of_mem _ hg)).2

/-! ## Freshly written words -/

/-- An item as it is when it is freshly written: a code word or a sync word. -/
def Item.fresh (it : Item) : Item := if it.tag = .seam then ⟨.coded, it.byte⟩ else it

theorem trackWords_fresh (y : Bool) (l : List Item) :
    trackWords y (l.map Item.fresh) = trackWords y l := by
  induction l generalizing y with
  | nil => rfl
  | cons it l ih =>
    obtain ⟨tag, x⟩ := it
    cases tag <;> exact congrArg (_ :: ·) (ih _)

/-- **Freshly written words** obey the law. -/
theorem trackWords_gaps (y : Bool) {l : List Item} (hsound : ∀ it ∈ l, it.Sound) :
    RunLength ((trackWords y l).flatMap bitsOf) ∧
      ∀ g ∈ gaps ((trackWords y l).flatMap bitsOf), g ≤ 4 := by
  rw [← trackWords_fresh]
  refine (coded_trackWords y fun it hit htag => ?_).gaps fun it hit htag => ?_
  · obtain ⟨it, hit', rfl⟩ := List.mem_map.mp hit
    have hbyte := (hsound it hit').2
    obtain ⟨tag, x⟩ := it
    cases tag with
    | coded => cases htag
    | seam => cases htag
    | sync => exact hbyte rfl
  · obtain ⟨it, -, rfl⟩ := List.mem_map.mp hit
    obtain ⟨tag, x⟩ := it
    cases tag <;> cases htag

/-! ## Writes -/

/-- A write as the law wants it: its bitcells obey it, and every reload value that
`_wdata_bc_to_flux` stores for it, in calls of whatever sizes, is that of two, three or
four bitcells, except for the first. -/
structure LegalWrite (m : Mem) (wr : Write) : Prop where
  cells : RunLength (wr.bits m)
  arr : ∀ ticksPerCell : BitVec 32, 4 * ticksPerCell.toNat ≤ 65536 → ∀ reqs : List Nat,
    ∀ v ∈ (wdataCalls m ticksPerCell wr reqs).1.tail,
      ∃ k, (k = 2 ∨ k = 3 ∨ k = 4) ∧ v = BitVec.ofNat 16 (k * ticksPerCell.toNat) - 1

/-- The reload values follow the gaps. -/
theorem legalWrite_of_gaps {m : Mem} {wr : Write} (heven : wr.nrWords % 2 = 0)
    (hcons : wr.bcCons = 0) (hticks : wr.ticksSinceFlux = 0)
    (h : RunLength (wr.bits m) ∧ ∀ g ∈ gaps (wr.bits m), g ≤ 4) : LegalWrite m wr := by
  refine ⟨h.1, fun ticksPerCell hfit reqs v hv => ?_⟩
  have hall := wdataCalls_emit m ticksPerCell reqs wr heven (by omega)
  have hgaps := emit_fluxStep_gaps ticksPerCell (wr.bits m) 0 fun g hg =>
    (Nat.mul_le_mul_right _ (h.2 g hg)).trans hfit
  rw [Nat.zero_mul] at hgaps
  simp only [hcons, hticks, List.drop_zero] at hall
  replace hall := hall.trans hgaps
  -- what is stored is the front of the flux sequence
  have htail : v ∈ ((gaps (wr.bits m)).map (gapArr ticksPerCell.toNat)).tail := by
    rw [gaps]
    generalize (wdataCalls m ticksPerCell wr reqs).1 = stored at hall hv
    cases stored with
    | nil => exact absurd hv List.not_mem_nil
    | cons v₀ stored =>
      rw [← hall]
      exact List.mem_append_left _ hv
  rw [← List.map_tail] at htail
  obtain ⟨g, hg, rfl⟩ := List.mem_map.mp htail
  have hlegal := h.1 g hg
  exact ⟨g, by omega, rfl⟩

/-- **Every MFM write obeys the run-length law**: the buffers of `ibm_mfm_write_sector`,
`ibm_mfm_write_track` and `amiga_track_write`, whatever is in memory around them. -/
theorem mfm_write_run_length (m : Mem) (p : Nat) :
    (∀ (buf : List Byte) (idam : Idam) (gap3 : Nat), buf.length = idam.size →
      LegalWrite (ibmMfmSectorBuffer m p buf idam gap3).mem
        (ibmMfmSectorBuffer m p buf idam gap3).wr) ∧
    (∀ (idams : List Idam) (gap3 : Nat),
      LegalWrite (ibmMfmWriteTrack m p idams gap3).mem (ibmMfmWriteTrack m p idams gap3).wr) ∧
    (∀ (buf : Mem) (track nsec : Nat), nsec = 11 ∨ nsec = 22 →
      ∃ w, amigaTrackWrite m p buf track nsec = some w ∧ LegalWrite w.1 w.2) := by
  refine ⟨fun buf idam gap3 hbuf => ?_, fun idams gap3 => ?_, fun buf track nsec hnsec => ?_⟩
  · obtain ⟨-, y, hbits⟩ := ibmMfmSectorBuffer_spec m p gap3 hbuf
    refine legalWrite_of_gaps ?_ rfl rfl ?_
    · show (mfmGapSync + 4 + idam.size + 2 + gap3 +
        if (mfmGapSync + 4 + idam.size + 2 + gap3) % 2 = 1 then 1 else 0) % 2 = 0
      split <;> omega
    · rw [hbits]
      exact trackWords_gaps y fun it hit => sound_damItems hit
  · obtain ⟨-, y, pad, -, hbits⟩ := ibmMfmWriteTrack_padded m p idams gap3
    refine legalWrite_of_gaps ?_ rfl rfl ?_
    · show trackBytes idams gap3 % 2 = 0
      rw [trackBytes_eq]
      omega
    · rw [hbits]
      refine trackWords_gaps y fun it hit => ?_
      exact (List.mem_append.mp hit).elim sound_trackItems sound_codedItems
  · obtain ⟨w, n, hwrite, -, hbits⟩ := amigaTrackWrite_spec m p buf track hnsec
    have hfields : w.2.nrWords = amigaTrackWords nsec ∧ w.2.bcCons = 0 ∧
        w.2.ticksSinceFlux = 0 := by
      rw [amigaTrackWrite, if_neg (by omega)] at hwrite
      obtain rfl := Option.some.inj hwrite
      exact ⟨rfl, rfl, rfl⟩
    refine ⟨w, hwrite, legalWrite_of_gaps ?_ hfields.2.1 hfields.2.2 ?_⟩
    · rw [hfields.1]
      rcases hnsec with rfl | rfl <;> rfl
    · have hcoded := coded_amigaCode 0 (trackLongs buf track nsec n)
      rw [hbits, ← flatMap_halves_flatMap_bitsOf]
      refine hcoded.gaps fun it hit => ?_
      obtain ⟨x, -, hit⟩ := List.mem_flatMap.mp hit
      cases x with
      | sync =>
        rw [List.eq_of_mem_replicate (n := 2) hit]
        decide
      | data l =>
        obtain ⟨b, -, rfl⟩ := List.mem_map.mp hit
        exact fun htag => by cases htag

/-- A sector of zero bytes, and a track. -/
theorem mfm_write_run_length_zeros :
    LegalWrite (ibmMfmSectorBuffer (fun _ => 0) 0 (List.replicate 128 0) ⟨0, 0, 1, 0⟩ 85).mem
        (ibmMfmSectorBuffer (fun _ => 0) 0 (List.replicate 128 0) ⟨0, 0, 1, 0⟩ 85).wr ∧
      ∃ w, amigaTrackWrite (fun _ => 0) 0 (fun _ => 0) 79 11 = some w ∧ LegalWrite w.1 w.2 :=
  ⟨(mfm_write_run_length (fun _ => 0) 0).1 _ ⟨0, 0, 1, 0⟩ 85 List.length_replicate,
    (mfm_write_run_length (fun _ => 0) 0).2.2 _ 79 11 (.inl rfl)⟩

end FlashFloppyTestbed
