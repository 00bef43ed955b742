/-
  Disk/FmTrack.lean --- a revolution that holds an FM track.

  FM sets every clock bit outside of its marks, so that a word does not depend on the
  one in front of it, and a missing clock bit tells a mark and the place in it.  The
  test for a mark therefore passes at the marks that were laid out and nowhere else,
  at whatever bit offset and across the index (`FmFormatted.fmSyncAt_iff`), and a
  read that has met one has the bytes from the gap byte in front of it on
  (`FmFormatted.floppyReadFm_field`).

  The layout is the one that `ibm_fm_scan` takes a sector to have.
-/
import FlashFloppyTestbed.Disk.FmAccept

set_option autoImplicit false

namespace FlashFloppyTestbed

open FlashFloppyTestbed.Foundation FlashFloppyTestbed.Floppy

/-! ## Items -/

/-- A byte of an FM track; a mark has the clock bits of `FM_SYNC_CLK`. -/
structure FmItem where
  mark : Bool
  byte : Byte

namespace FmItem

/-- The word that is written for it. -/
def word (it : FmItem) : BitVec 16 :=
  if it.mark then fmSync it.byte fmSyncClk else fmCode it.byte

end FmItem

/-- A mark: the clock bits of `FM_SYNC_CLK`, and the data bits of a code word. -/
theorem fmSync_eq (x : Byte) :
    fmSync x fmSyncClk = fmSync 0x00 fmSyncClk ||| (fmCode x &&& 0x5555) := by
  have hclock : (0xaaaa : BitVec 16) &&& 0x5555 = 0#16 := by decide
  have hzero : mfmtab 0x00 &&& 0x5555 = 0#16 := by decide
  rw [fmSync, fmSync, fmCode, BitVec.and_or_distrib_right, hclock, hzero, BitVec.or_zero,
    BitVec.or_zero]

theorem fmSync_getMsbD (x : Byte) {k : Nat} (hk : k < 8) :
    (fmSync x fmSyncClk).getMsbD (2 * k) = fmSyncClk.getMsbD k ∧
      (fmSync x fmSyncClk).getMsbD (2 * k + 1) = x.getMsbD k := by
  have hbits : ∀ k : Fin 8, (fmSync 0x00 fmSyncClk).getMsbD (2 * k) = fmSyncClk.getMsbD k ∧
      (fmSync 0x00 fmSyncClk).getMsbD (2 * k + 1) = false ∧
      (0x5555 : BitVec 16).getMsbD (2 * k) = false ∧
      (0x5555 : BitVec 16).getMsbD (2 * k + 1) = true := by
    decide
  obtain ⟨hclk, hdata, heven, hodd⟩ := hbits ⟨k, hk⟩
  rw [fmSync_eq, BitVec.getMsbD_or, BitVec.getMsbD_or, BitVec.getMsbD_and, BitVec.getMsbD_and,
    fmCode_data x hk]
  simp only [hclk, hdata, heven, hodd, Bool.and_false, Bool.or_false, Bool.and_true, Bool.false_or,
    and_self]

namespace FmItem

theorem word_clock (it : FmItem) {k : Nat} (hk : k < 8) :
    it.word.getMsbD (2 * k) = (!it.mark || fmSyncClk.getMsbD k) := by
  obtain ⟨mark, x⟩ := it
  cases mark with
  | false => exact fmCode_clock x hk
  | true => exact (fmSync_getMsbD x hk).1

theorem word_data (it : FmItem) {k : Nat} (hk : k < 8) :
    it.word.getMsbD (2 * k + 1) = it.byte.getMsbD k := by
  obtain ⟨mark, x⟩ := it
  cases mark with
  | false => exact fmCode_data x hk
  | true => exact (fmSync_getMsbD x hk).2

@[simp] theorem mfmtobin_word (it : FmItem) : mfmtobin it.word = it.byte := by
  apply BitVec.eq_of_getMsbD_eq
  intro k hk
  rw [mfmtobin_getMsbD _ hk, it.word_data hk]

end FmItem

/-- Bytes with all their clock bits. -/
def fmBytes (l : List Byte) : List FmItem := l.map (⟨false, ·⟩)

/-- A record, of which the first byte is the mark. -/
def fmField : List Byte → List FmItem
  | [] => []
  | x :: l => ⟨true, x⟩ :: fmBytes l

@[simp] theorem length_fmBytes (l : List Byte) : (fmBytes l).length = l.length := List.length_map _

@[simp] theorem length_fmField (l : List Byte) : (fmField l).length = l.length := by
  cases l with
  | nil => rfl
  | cons x l => rw [fmField, List.length_cons, length_fmBytes, List.length_cons]

@[simp] theorem map_byte_fmBytes (l : List Byte) : (fmBytes l).map FmItem.byte = l := by
  rw [fmBytes, List.map_map]
  exact List.map_id l

@[simp] theorem map_byte_fmField (l : List Byte) : (fmField l).map FmItem.byte = l := by
  cases l with
  | nil => rfl
  | cons x l => rw [fmField, List.map_cons, map_byte_fmBytes]

theorem map_word_fmBytes (l : List Byte) : (fmBytes l).map FmItem.word = l.map fmCode := by
  rw [fmBytes, List.map_map]
  rfl

/-- The words of a data field's record are the writer's. -/
theorem map_word_fmField (data : List Byte) :
    (fmField (fmRecord data)).map FmItem.word = fmRecordWords data := by
  rw [fmRecord, List.cons_append, fmField, List.map_cons, map_word_fmBytes]
  rfl

/-- Behind two bytes of gap a mark passes the test. -/
theorem fm_shows_field {x : Byte} (hx : x = 0xfe ∨ x = 0xfb) :
    Sync.fm.Shows (((((fmBytes [0x00, 0x00] ++ fmField [x]).map FmItem.word).flatMap
      bitsOf).drop 15).take 32) := by
  rcases hx with rfl | rfl
  · decide +kernel
  · decide +kernel

/-! ## The layout -/

/-- A header with its gaps. -/
def fmIdamItems (i : Idam) : List FmItem :=
  fmBytes (List.replicate fmGapSync 0x00) ++ fmField (fmIdamRecord i) ++
    fmBytes (List.replicate fmGap2 0xff)

/-- A data field with its gaps. -/
def fmDamItems (data : List Byte) (gap3 : Nat) : List FmItem :=
  fmBytes (List.replicate fmGapSync 0x00) ++ fmField (fmRecord data) ++
    fmBytes (List.replicate gap3 0xff)

/-- A sector. -/
def fmSectorItems (gap3 : Nat) (s : Sector) : List FmItem :=
  fmIdamItems s.idam ++ fmDamItems s.data gap3

/-- A track, up to the gap in front of the index. -/
def fmTrackItems (lead gap3 : Nat) (secs : List Sector) : List FmItem :=
  fmBytes (List.replicate lead 0xff) ++ secs.flatMap (fmSectorItems gap3)

/-- Consecutive sectors. -/
def fmSectorsLength (gap3 : Nat) (secs : List Sector) : Nat :=
  (secs.flatMap (fmSectorItems gap3)).length

/-- The words of a data field are the writer's. -/
theorem map_word_fmDamItems (data : List Byte) (gap3 : Nat) :
    (fmDamItems data gap3).map FmItem.word = fmSectorWords data gap3 := by
  rw [fmDamItems, List.map_append, List.map_append, map_word_fmBytes, map_word_fmBytes,
    List.map_replicate, List.map_replicate, map_word_fmField, fmSectorWords]

@[simp] theorem length_fmIdamItems (i : Idam) : (fmIdamItems i).length = 24 := by
  simp [fmIdamItems, fmIdamRecord, Idam.bytes, fmGapSync, fmGap2]

@[simp] theorem length_fmDamItems (data : List Byte) (gap3 : Nat) :
    (fmDamItems data gap3).length = data.length + gap3 + 9 := by
  simp [fmDamItems, fmGapSync]
  omega

@[simp] theorem length_fmSectorItems (gap3 : Nat) (s : Sector) :
    (fmSectorItems gap3 s).length = s.data.length + gap3 + 33 := by
  rw [fmSectorItems, List.length_append, length_fmIdamItems, length_fmDamItems]
  omega

@[simp] theorem fmSectorsLength_nil (gap3 : Nat) : fmSectorsLength gap3 [] = 0 := rfl

theorem fmSectorsLength_cons (gap3 : Nat) (s : Sector) (secs : List Sector) :
    fmSectorsLength gap3 (s :: secs) =
      s.data.length + gap3 + 33 + fmSectorsLength gap3 secs := by
  rw [fmSectorsLength, List.flatMap_cons, List.length_append, length_fmSectorItems, fmSectorsLength]

theorem fmSectorsLength_append (gap3 : Nat) (a b : List Sector) :
    fmSectorsLength gap3 (a ++ b) = fmSectorsLength gap3 a + fmSectorsLength gap3 b := by
  rw [fmSectorsLength, List.flatMap_append, List.length_append, fmSectorsLength, fmSectorsLength]

theorem length_fmTrackItems (lead gap3 : Nat) (secs : List Sector) :
    (fmTrackItems lead gap3 secs).length = lead + fmSectorsLength gap3 secs := by
  rw [fmTrackItems, List.length_append, length_fmBytes, List.length_replicate, fmSectorsLength]

/-! ## The marks -/

/-- Where the marks among some items are, the first item being at `st`. -/
def fmMarks : Nat → List FmItem → List Nat
  | _, [] => []
  | st, it :: l => if it.mark then st :: fmMarks (st + 1) l else fmMarks (st + 1) l

theorem mem_fmMarks {l : List FmItem} {st c : Nat} :
    c ∈ fmMarks st l ↔ ∃ i, c = st + i ∧ ∃ it, l[i]? = some it ∧ it.mark = true := by
  induction l generalizing st with
  | nil => simp [fmMarks]
  | cons it l ih =>
    have hrest : c ∈ fmMarks (st + 1) l ↔
        ∃ i, c = st + (i + 1) ∧ ∃ it', (it :: l)[i + 1]? = some it' ∧ it'.mark = true := by
      rw [ih]
      simp only [List.getElem?_cons_succ, Nat.add_assoc, Nat.add_comm 1]
    have hfirst : (it.mark = true ∧ c = st) ↔
        c = st + 0 ∧ ∃ it', (it :: l)[0]? = some it' ∧ it'.mark = true := by
      simp [and_comm]
    rw [fmMarks]
    constructor
    · split
      · rename_i hmark
        rw [List.mem_cons]
        rintro (hc | hc)
        · exact ⟨0, hfirst.mp ⟨hmark, hc⟩⟩
        · obtain ⟨i, hi⟩ := hrest.mp hc
          exact ⟨i + 1, hi⟩
      · intro hc
        obtain ⟨i, hi⟩ := hrest.mp hc
        exact ⟨i + 1, hi⟩
    · rintro ⟨_ | i, hi⟩
      · obtain ⟨hmark, hc⟩ := hfirst.mpr hi
        rw [if_pos hmark]
        exact List.mem_cons.mpr (.inl hc)
      · have hc := hrest.mpr ⟨i, hi⟩
        split
        · exact List.mem_cons_of_mem _ hc
        · exact hc

theorem fmMarks_append (a b : List FmItem) (st : Nat) :
    fmMarks st (a ++ b) = fmMarks st a ++ fmMarks (st + a.length) b := by
  induction a generalizing st with
  | nil => rfl
  | cons it a ih =>
    rw [List.cons_append, fmMarks, fmMarks, ih, List.length_cons, Nat.add_assoc st,
      Nat.add_comm 1]
    split <;> rfl

@[simp] theorem fmMarks_fmBytes (l : List Byte) (st : Nat) : fmMarks st (fmBytes l) = [] := by
  induction l generalizing st with
  | nil => rfl
  | cons x l ih => exact ih (st + 1)

@[simp] theorem fmMarks_fmField (x : Byte) (l : List Byte) (st : Nat) :
    fmMarks st (fmField (x :: l)) = [st] :=
  congrArg (st :: ·) (fmMarks_fmBytes l (st + 1))

/-- A sector has a mark in its header, and one in its data field. -/
theorem fmMarks_fmSectorItems (gap3 : Nat) (s : Sector) (st : Nat) :
    fmMarks st (fmSectorItems gap3 s) = [st + 6, st + 30] := by
  simp [fmSectorItems, fmIdamItems, fmDamItems, fmIdamRecord, fmRecord, fmMarks_append, fmGapSync,
    fmGap2, Idam.bytes]

/-- The marks of a track are those of its sectors. -/
theorem mem_fmMarks_sectors {gap3 c : Nat} {secs : List Sector} {st : Nat} :
    c ∈ fmMarks st (secs.flatMap (fmSectorItems gap3)) ↔
      ∃ pre s post, secs = pre ++ s :: post ∧
        (c = st + fmSectorsLength gap3 pre + 6 ∨ c = st + fmSectorsLength gap3 pre + 30) := by
  induction secs generalizing st with
  | nil => simp [fmMarks]
  | cons s secs ih =>
    rw [List.flatMap_cons, fmMarks_append, fmMarks_fmSectorItems, List.mem_append, ih,
      length_fmSectorItems]
    constructor
    · rintro (hc | ⟨pre, s', post, rfl, hc⟩)
      · exact ⟨[], s, secs, rfl, by simpa using hc⟩
      · refine ⟨s :: pre, s', post, rfl, ?_⟩
        rw [fmSectorsLength_cons]
        omega
    · rintro ⟨_ | ⟨s'', pre⟩, s', post, heq, hc⟩
      · exact .inl (by simpa using hc)
      · obtain ⟨rfl, rfl⟩ := List.cons.inj heq
        rw [fmSectorsLength_cons] at hc
        exact .inr ⟨pre, s', post, rfl, by omega⟩

theorem fmMarks_fmTrackItems (lead gap3 : Nat) (secs : List Sector) :
    fmMarks 0 (fmTrackItems lead gap3 secs) =
      fmMarks lead (secs.flatMap (fmSectorItems gap3)) := by
  rw [fmTrackItems, fmMarks_append, fmMarks_fmBytes, List.nil_append, length_fmBytes,
    List.length_replicate, Nat.zero_add]

section Marks

variable {lead gap3 : Nat} {pre post : List Sector} {s : Sector}

theorem fmIdamMark_mem (lead gap3 : Nat) (pre post : List Sector) (s : Sector) :
    lead + fmSectorsLength gap3 pre + 6 ∈
      fmMarks 0 (fmTrackItems lead gap3 (pre ++ s :: post)) := by
  rw [fmMarks_fmTrackItems, mem_fmMarks_sectors]
  exact ⟨pre, s, post, rfl, .inl rfl⟩

theorem fmDamMark_mem (lead gap3 : Nat) (pre post : List Sector) (s : Sector) :
    lead + fmSectorsLength gap3 pre + 30 ∈
      fmMarks 0 (fmTrackItems lead gap3 (pre ++ s :: post)) := by
  rw [fmMarks_fmTrackItems, mem_fmMarks_sectors]
  exact ⟨pre, s, post, rfl, .inr rfl⟩

/-- Marks are further apart than a header is long. -/
theorem fmMarks_spaced (gap3 : Nat) (secs : List Sector) (st : Nat) :
    (fmMarks st (secs.flatMap (fmSectorItems gap3))).Pairwise fun a b => a + 9 ≤ b := by
  induction secs generalizing st with
  | nil => exact List.Pairwise.nil
  | cons s secs ih =>
    rw [List.flatMap_cons, fmMarks_append, fmMarks_fmSectorItems, List.cons_append,
      List.singleton_append]
    have hbehind : ∀ c ∈ fmMarks (st + (fmSectorItems gap3 s).length)
        (secs.flatMap (fmSectorItems gap3)), st + 39 ≤ c := by
      intro c hc
      obtain ⟨pre, s', post, -, hc⟩ := mem_fmMarks_sectors.mp hc
      rw [length_fmSectorItems] at hc
      omega
    refine List.pairwise_cons.mpr ⟨fun c hc => ?_, List.pairwise_cons.mpr ⟨fun c hc => ?_, ih _⟩⟩
    · rcases List.mem_cons.mp hc with rfl | hc
      · omega
      · have hge := hbehind c hc
        omega
    · have hge := hbehind c hc
      omega

theorem fmMarks_apart {secs : List Sector} {a b : Nat}
    (ha : a ∈ fmMarks 0 (fmTrackItems lead gap3 secs))
    (hb : b ∈ fmMarks 0 (fmTrackItems lead gap3 secs)) : a = b ∨ a + 9 ≤ b ∨ b + 9 ≤ a := by
  rw [fmMarks_fmTrackItems] at ha hb
  have hspaced := List.pairwise_iff_getElem.mp (fmMarks_spaced gap3 secs lead)
  obtain ⟨i, hi, rfl⟩ := List.mem_iff_getElem.mp ha
  obtain ⟨j, hj, rfl⟩ := List.mem_iff_getElem.mp hb
  rcases Nat.lt_trichotomy i j with hij | rfl | hij
  · exact .inr (.inl (hspaced i j hi hj hij))
  · exact .inl rfl
  · exact .inr (.inr (hspaced j i hj hi hij))

/-- The marks from a sector's header on. -/
theorem fmMarks_from {c : Nat} (hc : c ∈ fmMarks 0 (fmTrackItems lead gap3 (pre ++ s :: post)))
    (hge : lead + fmSectorsLength gap3 pre + 6 ≤ c) :
    c = lead + fmSectorsLength gap3 pre + 6 ∨ c = lead + fmSectorsLength gap3 pre + 30 ∨
      lead + fmSectorsLength gap3 (pre ++ [s]) + 6 ≤ c ∧ post ≠ [] := by
  rw [fmMarks_fmTrackItems, List.flatMap_append, List.flatMap_cons, fmMarks_append, fmMarks_append,
    fmMarks_fmSectorItems, List.mem_append, List.mem_append, List.mem_cons, List.mem_singleton,
    ← fmSectorsLength, length_fmSectorItems] at hc
  rcases hc with hc | (hc | hc) | hc
  · obtain ⟨pre', s', post', rfl, hc⟩ := mem_fmMarks_sectors.mp hc
    rw [fmSectorsLength_append, fmSectorsLength_cons] at hge
    omega
  · exact .inl hc
  · exact .inr (.inl hc)
  · obtain ⟨pre', s', post', rfl, hc⟩ := mem_fmMarks_sectors.mp hc
    rw [fmSectorsLength_append, fmSectorsLength_cons, fmSectorsLength_nil]
    exact .inr (.inr ⟨by omega, by simp⟩)

/-- A header's record, behind two bytes of its gap. -/
theorem drop_fmIdamRecord (lead gap3 : Nat) (pre post : List Sector) (s : Sector) : ∃ rest,
    (fmTrackItems lead gap3 (pre ++ s :: post)).drop (lead + fmSectorsLength gap3 pre + 4) =
      fmBytes [0x00, 0x00] ++ (fmField (fmIdamRecord s.idam) ++ rest) := by
  have hsplit : fmTrackItems lead gap3 (pre ++ s :: post) =
      (fmBytes (List.replicate lead 0xff) ++ pre.flatMap (fmSectorItems gap3) ++
        fmBytes (List.replicate 4 0x00)) ++ (fmBytes [0x00, 0x00] ++
        (fmField (fmIdamRecord s.idam) ++ (fmBytes (List.replicate fmGap2 0xff) ++
          (fmDamItems s.data gap3 ++ post.flatMap (fmSectorItems gap3))))) := by
    rw [fmTrackItems, List.flatMap_append, List.flatMap_cons, fmSectorItems, fmIdamItems]
    simp only [List.append_assoc]
    rfl
  rw [hsplit]
  refine ⟨_, List.drop_left' ?_⟩
  rw [List.length_append, List.length_append, length_fmBytes, length_fmBytes, List.length_replicate,
    List.length_replicate, fmSectorsLength]

/-- A data field's record, behind two bytes of its gap. -/
theorem drop_fmRecord (lead gap3 : Nat) (pre post : List Sector) (s : Sector) : ∃ rest,
    (fmTrackItems lead gap3 (pre ++ s :: post)).drop (lead + fmSectorsLength gap3 pre + 28) =
      fmBytes [0x00, 0x00] ++ (fmField (fmRecord s.data) ++ rest) := by
  have hsplit : fmTrackItems lead gap3 (pre ++ s :: post) =
      (fmBytes (List.replicate lead 0xff) ++ pre.flatMap (fmSectorItems gap3) ++
        fmIdamItems s.idam ++ fmBytes (List.replicate 4 0x00)) ++ (fmBytes [0x00, 0x00] ++
        (fmField (fmRecord s.data) ++ (fmBytes (List.replicate gap3 0xff) ++
          post.flatMap (fmSectorItems gap3)))) := by
    rw [fmTrackItems, List.flatMap_append, List.flatMap_cons, fmSectorItems, fmDamItems]
    simp only [List.append_assoc]
    rfl
  rw [hsplit]
  refine ⟨_, List.drop_left' ?_⟩
  rw [List.length_append, List.length_append, List.length_append, length_fmBytes, length_fmBytes,
    length_fmIdamItems, List.length_replicate, List.length_replicate, fmSectorsLength]

/-- At each mark a record begins, behind two bytes of gap. -/
theorem drop_fmField {secs : List Sector} {c : Nat}
    (hc : c ∈ fmMarks 0 (fmTrackItems lead gap3 secs)) :
    ∃ q x l rest, c = q + 2 ∧ (x = 0xfe ∨ x = 0xfb) ∧ (fmTrackItems lead gap3 secs).drop q =
      fmBytes [0x00, 0x00] ++ (fmField (x :: l) ++ rest) := by
  rw [fmMarks_fmTrackItems, mem_fmMarks_sectors] at hc
  obtain ⟨pre, s, post, rfl, rfl | rfl⟩ := hc
  · obtain ⟨rest, hdrop⟩ := drop_fmIdamRecord lead gap3 pre post s
    exact ⟨_, _, _, rest, rfl, .inl rfl, hdrop⟩
  · obtain ⟨rest, hdrop⟩ := drop_fmRecord lead gap3 pre post s
    exact ⟨_, _, _, rest, rfl, .inr rfl, hdrop⟩

end Marks

/-! ## The revolution -/

namespace Disk

/-- The test for a mark, bitcell by bitcell. -/
theorem fmSyncAt_iff_forall (d : Disk) (o : Nat) :
    d.FmSyncAt o ↔ ∀ i, i < 32 → fmMask.getMsbD i = true →
      d.cells ((o + i) % d.size) = fmPattern.getMsbD i := by
  rw [FmSyncAt, fm_shows_iff (length_stream d o 32)]
  refine forall_congr' fun i => forall_congr' fun hi => forall_congr' fun _ => ?_
  have hget : (d.stream o 32)[i]? = some (d.cells ((o + i) % d.size)) := by
    rw [List.getElem?_eq_getElem (by rw [length_stream]; exact hi)]
    exact congrArg some (getElem_window _ _ _ _ _ _)
  rw [hget, Option.some.injEq]

/-- The revolution holds an FM track with the given sectors, and behind it the gap in front
of the index. -/
structure FmFormatted (d : Disk) (lead gap3 : Nat) (secs : List Sector) : Prop where
  words : ∀ r, r < d.size →
    ∀ h : r / 16 < ((fmTrackItems lead gap3 secs).map FmItem.word).length,
      d.cells r = (((fmTrackItems lead gap3 secs).map FmItem.word)[r / 16]).getMsbD (r % 16)
  gap : ∀ r, r < d.size → 16 * (fmTrackItems lead gap3 secs).length ≤ r → d.cells r = true
  size_ge : 16 * (fmTrackItems lead gap3 secs).length + 31 ≤ d.size
  data : ∀ s ∈ secs, s.data.length = s.idam.size

namespace FmFormatted

variable {d : Disk} {lead gap3 : Nat} {secs : List Sector}

theorem size_pos (h : d.FmFormatted lead gap3 secs) : 0 < d.size :=
  Nat.lt_of_lt_of_le (by omega) h.size_ge

/-- A mark lies well within the track. -/
theorem mark_room (h : d.FmFormatted lead gap3 secs) {c : Nat}
    (hc : c ∈ fmMarks 0 (fmTrackItems lead gap3 secs)) : lead + 6 ≤ c ∧ 16 * (c + 64) ≤ d.size := by
  have hge := h.size_ge
  rw [length_fmTrackItems] at hge
  rw [fmMarks_fmTrackItems, mem_fmMarks_sectors] at hc
  obtain ⟨pre, s, post, rfl, hc⟩ := hc
  have hlong := s.idam.le_size
  have hdata := h.data s (by simp)
  rw [fmSectorsLength_append, fmSectorsLength_cons] at hge
  exact ⟨by omega, by omega⟩

/-- A revolution is longer than its sectors are many. -/
theorem two_mul_lt (h : d.FmFormatted lead gap3 secs) : 2 * secs.length < d.size := by
  have hge := h.size_ge
  have hlong : ∀ secs : List Sector, secs.length ≤ fmSectorsLength gap3 secs := by
    intro secs
    induction secs with
    | nil => exact Nat.zero_le _
    | cons s secs ih =>
      rw [fmSectorsLength_cons, List.length_cons]
      omega
  have hle := hlong secs
  rw [length_fmTrackItems] at hge
  omega

/-- A bitcell, by its word. -/
theorem cell (h : d.FmFormatted lead gap3 secs) {q j : Nat} {it : FmItem} (hj : j < 16)
    (hit : (fmTrackItems lead gap3 secs)[q]? = some it) :
    d.cells (16 * q + j) = it.word.getMsbD j := by
  have hge := h.size_ge
  obtain ⟨hq, hget⟩ := List.getElem?_eq_some_iff.mp hit
  have hdiv : (16 * q + j) / 16 = q := by omega
  have hmod : (16 * q + j) % 16 = j := by omega
  have hcell := h.words (16 * q + j) (by omega) (by rw [List.length_map]; omega)
  simp only [hdiv, hmod, List.getElem_map, hget] at hcell
  exact hcell

/-- **A clock bit is missing** in three places of a mark only. -/
theorem missing (h : d.FmFormatted lead gap3 secs) {c : Nat} (heven : c % 2 = 0) (hlt : c < d.size)
    (hclock : d.cells c = false) :
    c / 16 ∈ fmMarks 0 (fmTrackItems lead gap3 secs) ∧
      (c % 16 = 4 ∨ c % 16 = 6 ∨ c % 16 = 8) := by
  have hin : c / 16 < (fmTrackItems lead gap3 secs).length := by
    by_contra hout
    rw [h.gap c hlt (by omega)] at hclock
    cases hclock
  obtain ⟨q, k, hk, rfl⟩ : ∃ q k, k < 8 ∧ c = 16 * q + 2 * k :=
    ⟨c / 16, c % 16 / 2, by omega, by omega⟩
  have hdiv : (16 * q + 2 * k) / 16 = q := by omega
  have hmod : (16 * q + 2 * k) % 16 = 2 * k := by omega
  rw [hdiv] at hin ⊢
  rw [hmod]
  obtain ⟨it, hit⟩ : ∃ it, (fmTrackItems lead gap3 secs)[q]? = some it :=
    ⟨_, List.getElem?_eq_getElem hin⟩
  rw [h.cell (by omega) hit, it.word_clock hk, Bool.or_eq_false_iff, Bool.not_eq_false'] at hclock
  obtain ⟨hmark, hclk⟩ := hclock
  have hthree : ∀ k : Fin 8, fmSyncClk.getMsbD k = false → k.val = 2 ∨ k.val = 3 ∨ k.val = 4 := by
    decide
  have hk' : k = 2 ∨ k = 3 ∨ k = 4 := hthree ⟨k, hk⟩ hclk
  exact ⟨mem_fmMarks.mpr ⟨q, (Nat.zero_add q).symm, it, hit, hmark⟩, by omega⟩

/-- Whole words within the revolution. -/
theorem stream_eq (h : d.FmFormatted lead gap3 secs) {o q : Nat} (ho : o % d.size = 16 * q) :
    ∀ n, q + n ≤ (fmTrackItems lead gap3 secs).length →
      d.stream o (16 * n) =
        ((((fmTrackItems lead gap3 secs).drop q).take n).map FmItem.word).flatMap bitsOf
  | 0, _ => rfl
  | n + 1, hn => by
    have hge := h.size_ge
    obtain ⟨it, hit⟩ : ∃ it, (fmTrackItems lead gap3 secs)[q + n]? = some it :=
      ⟨_, List.getElem?_eq_getElem (by omega)⟩
    have hlast : d.stream (o + 16 * n) 16 = bitsOf it.word := by
      rw [stream, window, bitsOf, List.map_inj_left]
      intro i hi
      rw [List.mem_range] at hi
      rw [← h.cell hi hit, Nat.add_assoc, Nat.add_mod, ho]
      congr 1
      rw [Nat.mod_eq_of_lt (a := 16 * n + i) (by omega), Nat.mod_eq_of_lt (by omega)]
      omega
    rw [Nat.mul_succ, stream_add, h.stream_eq ho n (by omega), hlast,
      List.take_add_one, List.getElem?_drop, hit]
    simp

/-- **The marks are found** where they were laid out, and nowhere else: at whatever bit
offset, and across the index. -/
theorem fmSyncAt_iff (h : d.FmFormatted lead gap3 secs) (o : Nat) :
    d.FmSyncAt o ↔ ∃ c ∈ fmMarks 0 (fmTrackItems lead gap3 secs), o % d.size + 17 = 16 * c := by
  have hge := h.size_ge
  obtain ⟨r, hr⟩ : ∃ r, r = o % d.size := ⟨_, rfl⟩
  have hlt : r < d.size := hr ▸ Nat.mod_lt _ h.size_pos
  rw [← d.fmSyncAt_mod, ← hr]
  constructor
  · intro hsync
    rw [fmSyncAt_iff_forall] at hsync
    have hzero : ∀ i : Fin 32, fmMask.getMsbD i = true → fmPattern.getMsbD i = false →
        d.cells ((r + i) % d.size) = false :=
      fun i hmask hbit => (hsync i i.isLt hmask).trans hbit
    -- across the index the first bitcell would be one of the gap
    have hin : r + 32 ≤ d.size := by
      by_contra hacross
      have hfirst := hzero 0 (by decide) (by decide)
      rw [Fin.val_zero, Nat.add_zero, Nat.mod_eq_of_lt hlt, h.gap r hlt (by omega)] at hfirst
      cases hfirst
    have hclear : ∀ i : Fin 32, fmMask.getMsbD i = true → fmPattern.getMsbD i = false →
        d.cells (r + i) = false := by
      intro i hmask hbit
      have hcell := hzero i hmask hbit
      rwa [Nat.mod_eq_of_lt (by omega)] at hcell
    rcases Nat.mod_two_eq_zero_or_one r with heven | hodd
    · -- in this phase clock bits would be missing six bitcells apart
      have h₀ := (h.missing heven hlt (hclear 0 (by decide) (by decide))).2
      have h₆ := (h.missing (show (r + 6) % 2 = 0 by omega) (by omega)
        (hclear 6 (by decide) (by decide))).2
      omega
    · obtain ⟨hmem, h₂₁⟩ := h.missing (show (r + 21) % 2 = 0 by omega) (by omega)
        (hclear 21 (by decide) (by decide))
      have h₂₅ := (h.missing (show (r + 25) % 2 = 0 by omega) (by omega)
        (hclear 25 (by decide) (by decide))).2
      exact ⟨_, hmem, by omega⟩
  · rintro ⟨c, hc, hpos⟩
    obtain ⟨-, hroom⟩ := h.mark_room hc
    obtain ⟨q, x, l, rest, rfl, hx, hdrop⟩ := drop_fmField hc
    have hlen := congrArg List.length hdrop
    rw [List.length_drop, List.length_append, length_fmBytes, List.length_append, length_fmField,
      List.length_cons, List.length_cons, List.length_cons, List.length_nil] at hlen
    have hwords := h.stream_eq (show (16 * q) % d.size = 16 * q from Nat.mod_eq_of_lt (by omega)) 3
      (by omega)
    have htake : ((fmTrackItems lead gap3 secs).drop q).take 3 =
        fmBytes [0x00, 0x00] ++ fmField [x] := by
      rw [hdrop]
      rfl
    have hwindow : d.stream r 32 = ((d.stream (16 * q) (16 * 3)).drop 15).take 32 := by
      rw [drop_stream d _ (by decide), take_stream d _ (by decide),
        show 16 * q + 15 = r by omega]
    rw [FmSyncAt, hwindow, hwords, htake]
    exact fm_shows_field hx

/-! ## Reading -/

/-- A read from `t` on sees the mark that is met first. -/
theorem findFmSync_eq (h : d.FmFormatted lead gap3 secs) {t o : Nat}
    (hfirst : FirstFrom d.FmSyncAt t o) : d.findFmSync t = some o :=
  hfirst.find?_eq d.fmSyncAt_mod h.size_pos

/-- **A read that finds a mark**: behind a gap byte, its record. -/
theorem floppyReadFm_field (h : d.FmFormatted lead gap3 secs) {t o q n : Nat} {r : List Byte}
    {rest : List FmItem} (m : Mem) (p : Nat) (hfirst : FirstFrom d.FmSyncAt t o)
    (ho : o % d.size + 17 = 16 * (q + 2))
    (hdrop : (fmTrackItems lead gap3 secs).drop q =
      fmBytes [0x00, 0x00] ++ (fmField r ++ rest)) (hn : n ≤ r.length) :
    ∃ m', d.floppyReadFm m p (n + 1) t = some (m', o + 1) ∧
      (fmToBin m' p (n + 1)).bytes (p + 1) n = r.take n := by
  have hge := h.size_ge
  have hlen := congrArg List.length hdrop
  rw [List.length_drop, List.length_append, length_fmBytes, List.length_append, length_fmField,
    List.length_cons, List.length_cons, List.length_nil] at hlen
  have hstart : (o + 1) % d.size = 16 * (q + 1) := by
    rw [Nat.add_mod, Nat.mod_eq_of_lt (a := 1) (by omega), Nat.mod_eq_of_lt (by omega)]
    omega
  have hitems : ((fmTrackItems lead gap3 secs).drop (q + 1)).take (n + 1) =
      ⟨false, 0x00⟩ :: (fmField r).take n := by
    rw [← List.drop_drop, hdrop]
    show _ :: (fmField r ++ rest).take n = _
    rw [List.take_append_of_le_length (by rw [length_fmField]; exact hn)]
  obtain ⟨m', hm'⟩ : ∃ m', m' = m.stBits p (d.stream (o + 1) (16 * (n + 1))) := ⟨_, rfl⟩
  have hwords : m'.words p (n + 1) =
      fmCode 0x00 :: ((fmField r).take n).map FmItem.word := by
    have hst := Mem.words_stBits m p
      ((((fmTrackItems lead gap3 secs).drop (q + 1)).take (n + 1)).map FmItem.word)
    rw [← h.stream_eq hstart (n + 1) (by omega), ← hm', hitems, List.length_map, List.length_cons,
      List.length_take_of_le (by rw [length_fmField]; exact hn)] at hst
    exact hst
  have hbytes : (fmToBin m' p (n + 1)).bytes p (n + 1) = 0x00 :: r.take n := by
    rw [fmToBin, mfmToBin_bytes, hwords, List.map_cons, mfmtobin_fmCode, List.map_map,
      show mfmtobin ∘ FmItem.word = FmItem.byte from funext FmItem.mfmtobin_word, List.map_take,
      map_byte_fmField]
  rw [Mem.bytes_succ] at hbytes
  exact ⟨m', by rw [floppyReadFm, h.findFmSync_eq hfirst, hm']; rfl, (List.cons.inj hbytes).2⟩

section Records

variable {pre post : List Sector} {s : Sector} {t o : Nat}

/-- A read at a header's mark yields the header. -/
theorem read_header (h : d.FmFormatted lead gap3 (pre ++ s :: post)) (m : Mem) (p : Nat)
    (hfirst : FirstFrom d.FmSyncAt t o)
    (ho : o % d.size + 17 = 16 * (lead + fmSectorsLength gap3 pre + 6)) :
    ∃ m', d.floppyReadFm m p 8 t = some (m', o + 1) ∧ fmToBin m' p 8 (p + 1) = 0xfe ∧
      (fmToBin m' p 8).bytes (p + 2) 4 = s.idam.bytes ∧
      crc16Ccitt ((fmToBin m' p 8).bytes (p + 1) 7) 0xffff = 0 := by
  obtain ⟨rest, hdrop⟩ := drop_fmIdamRecord lead gap3 pre post s
  obtain ⟨m', hread, hbytes⟩ := h.floppyReadFm_field m p (n := 7) hfirst ho hdrop (Nat.le_refl 7)
  have hsub := fun i k hk => Mem.bytes_sub (fmToBin m' p 8) (p + 1) 7 i k hk
  rw [hbytes] at hsub
  refine ⟨m', hread, ?_, hsub 1 4 (by decide), ?_⟩
  · exact (List.cons.inj (hsub 0 1 (by decide))).1
  · rw [hbytes]
    exact crc16Ccitt_append_self (0xfe :: s.idam.bytes) _

/-- A read at a data field's mark yields no header. -/
theorem read_dam (h : d.FmFormatted lead gap3 (pre ++ s :: post)) (m : Mem) (p : Nat)
    (hfirst : FirstFrom d.FmSyncAt t o)
    (ho : o % d.size + 17 = 16 * (lead + fmSectorsLength gap3 pre + 30)) :
    ∃ m', d.floppyReadFm m p 8 t = some (m', o + 1) ∧ fmToBin m' p 8 (p + 1) ≠ 0xfe := by
  have hlong := s.idam.le_size
  have hdata := h.data s (by simp)
  obtain ⟨rest, hdrop⟩ := drop_fmRecord lead gap3 pre post s
  obtain ⟨m', hread, hbytes⟩ := h.floppyReadFm_field m p (n := 7) hfirst ho hdrop
    (by rw [length_fmRecord]; omega)
  refine ⟨m', hread, ?_⟩
  have hfirst' : fmToBin m' p 8 (p + 1) = 0xfb := by
    have hsub := Mem.bytes_sub (fmToBin m' p 8) (p + 1) 7 0 1 (by decide)
    rw [hbytes, List.drop_zero, List.take_take] at hsub
    exact (List.cons.inj hsub).1
  rw [hfirst']
  decide

/-- The bitcells of a data field, from its mark on. -/
theorem stream_data (h : d.FmFormatted lead gap3 (pre ++ s :: post))
    (ho : o % d.size + 17 = 16 * (lead + fmSectorsLength gap3 pre + 30)) :
    d.stream (o + 17) (16 * (s.idam.size + 3)) = (fmRecordWords s.data).flatMap bitsOf := by
  have hge := h.size_ge
  have hdata := h.data s (by simp)
  obtain ⟨rest, hdrop⟩ := drop_fmRecord lead gap3 pre post s
  have hlen := congrArg List.length hdrop
  rw [List.length_drop, List.length_append, length_fmBytes, List.length_append, length_fmField,
    length_fmRecord, List.length_cons, List.length_cons, List.length_nil] at hlen
  have hstart : (o + 17) % d.size = 16 * (lead + fmSectorsLength gap3 pre + 28 + 2) := by
    rw [Nat.add_mod, Nat.mod_eq_of_lt (a := 17) (by omega), Nat.mod_eq_of_lt (by omega)]
    omega
  rw [h.stream_eq hstart _ (by omega), ← List.drop_drop, hdrop]
  show (((fmField (fmRecord s.data) ++ rest).take _).map FmItem.word).flatMap bitsOf = _
  rw [List.take_left' (by rw [length_fmField, length_fmRecord, hdata]), map_word_fmField]

end Records

end FmFormatted

end Disk

end FlashFloppyTestbed
