/-
  Disk/Format.lean --- a formatted revolution: the track that the generators lay
  out, followed by filler up to the index.

  `Formatted` holds of the disk after a format and after every sector write.  It
  makes the revolution a `Track`, so that the sync marks are those of the sectors
  (`Formatted.syncAt_iff`), and a read from a mark yields the record that was
  laid out there (`Formatted.floppyRead_mark`).
-/
import FlashFloppyTestbed.Disk.Layout

set_option autoImplicit false

namespace FlashFloppyTestbed

open FlashFloppyTestbed.Foundation FlashFloppyTestbed.Floppy

namespace Disk

/-- The revolution holds a track with the given sectors, then MFM filler with the data
bytes `fs`, cut off anywhere. -/
structure Formatted (d : Disk) (gap3 : Nat) (secs : List Sector) (fs : List Byte) : Prop where
  words : ∃ y ws, Coded y (trackItems gap3 secs ++ codedItems fs) ws ∧
    ∀ r, r < d.size → ∀ h : r / 16 < ws.length, d.cells r = (ws[r / 16]).getMsbD (r % 16)
  size_ge : 16 * (trackItems gap3 secs).length ≤ d.size
  size_le : d.size ≤ 16 * (trackItems gap3 secs ++ codedItems fs).length
  data : ∀ s ∈ secs, s.data.length = s.idam.size

end Disk

/-! ## The items of a track are sound -/

/-- What an item of a track may be: seams are in front of gap bytes only. -/
def Item.Sound (it : Item) : Prop :=
  (it.tag = .seam → it.byte = 0x00 ∨ it.byte = 0x4e) ∧ (it.tag = .sync → it.byte = 0xa1)

theorem sound_codedItems {l : List Byte} {it : Item} (hit : it ∈ codedItems l) : it.Sound := by
  obtain ⟨x, _, rfl⟩ := List.mem_map.mp hit
  exact ⟨fun htag => (by cases htag), fun htag => (by cases htag)⟩

theorem sound_seamItems {n : Nat} {x : Byte} (hx : x = 0x00 ∨ x = 0x4e) {it : Item}
    (hit : it ∈ seamItems (List.replicate n x)) : it.Sound := by
  cases n with
  | zero => exact absurd hit List.not_mem_nil
  | succ n =>
    rcases List.mem_cons.mp hit with rfl | hit
    · exact ⟨fun _ => hx, fun htag => (by cases htag)⟩
    · exact sound_codedItems hit

theorem sound_recordItems {l : List Byte} {it : Item} (hit : it ∈ recordItems l) : it.Sound := by
  rcases List.mem_append.mp hit with hit | hit
  · rw [List.eq_of_mem_replicate hit]
    exact ⟨fun htag => (by cases htag), fun _ => rfl⟩
  · exact sound_codedItems hit

theorem sound_damItems {data : List Byte} {gap3 : Nat} {it : Item}
    (hit : it ∈ damItems data gap3) : it.Sound := by
  rw [damItems, List.mem_append, List.mem_append] at hit
  rcases hit with (hit | hit) | hit
  · exact sound_seamItems (.inl rfl) hit
  · exact sound_recordItems hit
  · exact sound_seamItems (.inr rfl) hit

theorem sound_trackItems {gap3 : Nat} {secs : List Sector} {it : Item}
    (hit : it ∈ trackItems gap3 secs) : it.Sound := by
  rw [trackItems, List.mem_append, List.mem_append, List.mem_flatMap] at hit
  rcases hit with (hit | ⟨s, _, hit⟩) | hit
  · exact sound_seamItems (.inr rfl) hit
  · rw [sectorItems, List.mem_append, idamItems, List.mem_append, List.mem_append] at hit
    rcases hit with ((hit | hit) | hit) | hit
    · exact sound_seamItems (.inl rfl) hit
    · exact sound_recordItems hit
    · exact sound_codedItems hit
    · exact sound_damItems hit
  · exact sound_seamItems (.inr rfl) hit

/-! ## The records of a track -/

/-- The items of consecutive sectors. -/
def sectorsLength (gap3 : Nat) (secs : List Sector) : Nat :=
  (secs.flatMap (sectorItems gap3)).length

theorem mem_markOffs {gap3 off : Nat} (secs : List Sector) : ∀ st,
    off ∈ markOffs gap3 st secs ↔ ∃ pre s post, secs = pre ++ s :: post ∧
      (off = st + sectorsLength gap3 pre + 12 ∨ off = st + sectorsLength gap3 pre + 56) := by
  induction secs with
  | nil =>
    intro st
    refine ⟨fun hmem => absurd hmem List.not_mem_nil, fun ⟨pre, s, post, heq, _⟩ => ?_⟩
    exact absurd heq.symm (List.append_ne_nil_of_right_ne_nil _ (List.cons_ne_nil _ _))
  | cons s secs ih =>
    intro st
    rw [markOffs, List.mem_cons, List.mem_cons, ih]
    constructor
    · rintro (h | h | ⟨pre, s', post, rfl, h⟩)
      · exact ⟨[], s, secs, rfl, .inl h⟩
      · exact ⟨[], s, secs, rfl, .inr h⟩
      · refine ⟨s :: pre, s', post, rfl, ?_⟩
        rw [sectorsLength, List.flatMap_cons, List.length_append, ← sectorsLength, ← Nat.add_assoc]
        exact h
    · rintro ⟨pre, s', post, heq, h⟩
      obtain _ | ⟨s'', pre⟩ := pre
      · obtain ⟨rfl, rfl⟩ := List.cons.inj heq
        exact h.imp id fun h => .inl h
      · obtain ⟨rfl, rfl⟩ := List.cons.inj heq
        refine .inr (.inr ⟨pre, s', post, rfl, ?_⟩)
        rw [sectorsLength, List.flatMap_cons, List.length_append, ← sectorsLength,
          ← Nat.add_assoc] at h
        exact h

/-- The mark of a header. -/
theorem idamOff_mem (gap3 : Nat) (pre post : List Sector) (s : Sector) :
    64 + sectorsLength gap3 pre + 12 ∈ markOffs gap3 64 (pre ++ s :: post) :=
  (mem_markOffs _ 64).mpr ⟨pre, s, post, rfl, .inl rfl⟩

/-- The mark of a data field. -/
theorem damOff_mem (gap3 : Nat) (pre post : List Sector) (s : Sector) :
    64 + sectorsLength gap3 pre + 56 ∈ markOffs gap3 64 (pre ++ s :: post) :=
  (mem_markOffs _ 64).mpr ⟨pre, s, post, rfl, .inr rfl⟩

/-- Marks are at least a header and its gap apart. -/
theorem markOffs_spaced (gap3 : Nat) (secs : List Sector)
    (hdata : ∀ s ∈ secs, 128 ≤ s.data.length) : ∀ st,
       (∀ off ∈ markOffs gap3 st secs, st + 12 ≤ off) ∧
      (markOffs gap3 st secs).Pairwise fun a b => a + 44 ≤ b := by
  induction secs with
  | nil => exact fun st => ⟨fun off hoff => absurd hoff List.not_mem_nil, List.Pairwise.nil⟩
  | cons s secs ih =>
    intro st
    obtain ⟨hge, hrest⟩ := ih (fun s' hs => hdata s' (List.mem_cons_of_mem s hs))
      (st + (sectorItems gap3 s).length)
    have hlong := hdata s List.mem_cons_self
    rw [length_sectorItems] at hge
    rw [markOffs]
    refine ⟨fun off hoff => ?_, ?_⟩
    · rcases List.mem_cons.mp hoff with rfl | hoff
      · exact Nat.le_refl _
      rcases List.mem_cons.mp hoff with rfl | hoff
      · omega
      · have := hge off (by rw [length_sectorItems] at hoff; exact hoff)
        omega
    · rw [length_sectorItems] at hrest ⊢
      refine List.pairwise_cons.mpr ⟨fun off hoff => ?_, List.pairwise_cons.mpr
        ⟨fun off hoff => ?_, hrest⟩⟩
      · rcases List.mem_cons.mp hoff with rfl | hoff
        · omega
        · have := hge off hoff
          omega
      · have := hge off hoff
        omega

theorem markOffs_apart {gap3 st a b : Nat} {secs : List Sector}
    (hdata : ∀ s ∈ secs, 128 ≤ s.data.length) (ha : a ∈ markOffs gap3 st secs)
    (hb : b ∈ markOffs gap3 st secs) : a = b ∨ a + 44 ≤ b ∨ b + 44 ≤ a := by
  have hspaced := List.pairwise_iff_getElem.mp (markOffs_spaced gap3 secs hdata st).2
  obtain ⟨i, hi, rfl⟩ := List.mem_iff_getElem.mp ha
  obtain ⟨j, hj, rfl⟩ := List.mem_iff_getElem.mp hb
  rcases Nat.lt_trichotomy i j with hij | rfl | hij
  · exact .inr (.inl (hspaced i j hi hj hij))
  · exact .inl rfl
  · exact .inr (.inr (hspaced j i hj hi hij))

section Records

variable {gap3 : Nat} {pre post : List Sector} {s : Sector}

/-- A track around one of its sectors. -/
theorem trackItems_split : trackItems gap3 (pre ++ s :: post) =
    (seamItems (List.replicate 64 0x4e) ++ pre.flatMap (sectorItems gap3)) ++
      (idamItems s.idam ++ (damItems s.data gap3 ++ (post.flatMap (sectorItems gap3) ++
        seamItems (List.replicate 64 0x4e)))) := by
  rw [trackItems, List.flatMap_append, List.flatMap_cons, sectorItems]
  simp only [List.append_assoc]

theorem length_trackItems (secs : List Sector) :
    (trackItems gap3 secs).length = sectorsLength gap3 secs + 128 := by
  rw [trackItems, List.length_append, List.length_append, length_seamItems, List.length_replicate,
    sectorsLength]
  omega

theorem sectorsLength_append (a b : List Sector) :
    sectorsLength gap3 (a ++ b) = sectorsLength gap3 a + sectorsLength gap3 b := by
  rw [sectorsLength, List.flatMap_append, List.length_append, sectorsLength, sectorsLength]

theorem sectorsLength_cons (s : Sector) (secs : List Sector) :
    sectorsLength gap3 (s :: secs) = s.data.length + gap3 + 62 + sectorsLength gap3 secs := by
  rw [sectorsLength, List.flatMap_cons, List.length_append, length_sectorItems, sectorsLength]

/-- The header's record in a track. -/
theorem drop_idamRecord (gap3 : Nat) (pre post : List Sector) (s : Sector) : ∃ rest,
    (trackItems gap3 (pre ++ s :: post)).drop (64 + sectorsLength gap3 pre + 12) =
      recordItems (idamRecord s.idam) ++ rest := by
  have hsplit : trackItems gap3 (pre ++ s :: post) =
      (seamItems (List.replicate 64 0x4e) ++ pre.flatMap (sectorItems gap3) ++
        seamItems (List.replicate mfmGapSync 0x00)) ++ (recordItems (idamRecord s.idam) ++
        (codedItems (List.replicate mfmGap2 0x4e) ++ (damItems s.data gap3 ++
        (post.flatMap (sectorItems gap3) ++ seamItems (List.replicate 64 0x4e))))) := by
    rw [trackItems_split, idamItems]
    simp only [List.append_assoc]
  rw [hsplit]
  refine ⟨_, List.drop_left' ?_⟩
  rw [List.length_append, List.length_append, length_seamItems, length_seamItems,
    List.length_replicate, List.length_replicate, sectorsLength, mfmGapSync]

/-- The data field's record in a track. -/
theorem drop_damRecord (gap3 : Nat) (pre post : List Sector) (s : Sector) : ∃ rest,
    (trackItems gap3 (pre ++ s :: post)).drop (64 + sectorsLength gap3 pre + 56) =
      recordItems (damRecord s.data) ++ rest := by
  have hsplit : trackItems gap3 (pre ++ s :: post) =
      (seamItems (List.replicate 64 0x4e) ++ pre.flatMap (sectorItems gap3) ++ idamItems s.idam ++
        seamItems (List.replicate mfmGapSync 0x00)) ++ (recordItems (damRecord s.data) ++
        (seamItems (List.replicate gap3 0x4e) ++
        (post.flatMap (sectorItems gap3) ++ seamItems (List.replicate 64 0x4e)))) := by
    rw [trackItems_split, damItems]
    simp only [List.append_assoc]
  rw [hsplit]
  refine ⟨_, List.drop_left' ?_⟩
  rw [List.length_append, List.length_append, List.length_append, length_seamItems,
    length_seamItems, length_idamItems, List.length_replicate, List.length_replicate, sectorsLength,
    mfmGapSync]

end Records

/-- At each mark the record of a header or of a data field begins. -/
theorem drop_record {gap3 off : Nat} {secs : List Sector} (hoff : off ∈ markOffs gap3 64 secs) :
    ∃ r rest, (trackItems gap3 secs).drop off = recordItems r ++ rest ∧
      ((∃ s : Sector, r = idamRecord s.idam) ∨ ∃ s : Sector, r = damRecord s.data) := by
  obtain ⟨pre, s, post, rfl, rfl | rfl⟩ := (mem_markOffs secs 64).mp hoff
  · obtain ⟨rest, hrest⟩ := drop_idamRecord gap3 pre post s
    exact ⟨_, rest, hrest, .inl ⟨s, rfl⟩⟩
  · obtain ⟨rest, hrest⟩ := drop_damRecord gap3 pre post s
    exact ⟨_, rest, hrest, .inr ⟨s, rfl⟩⟩

/-- A record lies within the track, so that what follows the track does not matter. -/
theorem drop_filled (fs : List Item) {gap3 off : Nat} {secs : List Sector} {r : List Byte}
    {rest : List Item} (hrec : 3 ≤ r.length)
    (hdrop : (trackItems gap3 secs).drop off = recordItems r ++ rest) :
    off + r.length ≤ (trackItems gap3 secs).length ∧
      (trackItems gap3 secs ++ fs).drop off = recordItems r ++ (rest ++ fs) := by
  have hlen := congrArg List.length hdrop
  rw [List.length_drop, List.length_append, length_recordItems hrec] at hlen
  refine ⟨by omega, ?_⟩
  rw [List.drop_append_of_le_length (by omega), hdrop, List.append_assoc]

theorem marksAt_filled (gap3 : Nat) (secs : List Sector) (fs : List Byte) :
    MarksAt (trackItems gap3 secs ++ codedItems fs) (markOffs gap3 64 secs) := by
  have hall := (MarksAt.trackItems gap3 secs).append (MarksAt.codedItems fs)
  rw [List.map_nil, List.append_nil] at hall
  exact hall

/-- The item behind a sync word is a sync word or an address mark. -/
theorem afterSync_trackItems {gap3 : Nat} {secs : List Sector} {fs : List Byte} (q : Nat)
    (hq : q + 1 < (trackItems gap3 secs ++ codedItems fs).length)
    (hsync : ((trackItems gap3 secs ++ codedItems fs)[q]).tag = .sync) :
    ((trackItems gap3 secs ++ codedItems fs)[q + 1]).byte ≠ 0x41 := by
  obtain ⟨off, hoff, hle, hlt⟩ := ((marksAt_filled gap3 secs fs).iff q (by omega)).mp hsync
  obtain ⟨r, rest, hdrop, hr⟩ := drop_record hoff
  obtain ⟨-, hdrop⟩ := drop_filled (codedItems fs)
    (by rcases hr with ⟨s, rfl⟩ | ⟨s, rfl⟩ <;> simp) hdrop
  obtain ⟨j, hj, hj'⟩ : ∃ j, j < 3 ∧ q + 1 = off + (j + 1) := ⟨q - off, by omega, by omega⟩
  have hitem : (trackItems gap3 secs ++ codedItems fs)[q + 1]? =
      (recordItems r ++ (rest ++ codedItems fs))[j + 1]? := by
    rw [← hdrop, List.getElem?_drop, hj']
  rw [List.getElem?_eq_getElem hq] at hitem
  have hnext : ∃ x tail, x ≠ 0x41 ∧ recordItems r = syncItems ++ ⟨.coded, x⟩ :: tail := by
    rcases hr with ⟨s, rfl⟩ | ⟨s, rfl⟩
    · exact ⟨0xfe, _, by decide, rfl⟩
    · exact ⟨0xfb, _, by decide, rfl⟩
  obtain ⟨x, tail, hx, hrecord⟩ := hnext
  rw [hrecord] at hitem
  interval_cases j
  · rw [Option.some.inj hitem]
    decide
  · rw [Option.some.inj hitem]
    decide
  · rw [Option.some.inj hitem]
    exact hx

namespace Disk.Formatted

variable {d : Disk} {gap3 : Nat} {secs : List Sector} {fs : List Byte}

/-- **A formatted revolution is a track**, so that its sync marks are its own. -/
theorem track (h : d.Formatted gap3 secs fs) :
    ∃ ws, d.Track (trackItems gap3 secs ++ codedItems fs) ws := by
  obtain ⟨y, ws, hcoded, hcells⟩ := h.words
  have hge := h.size_ge
  rw [length_trackItems] at hge
  -- the pre-index gap and the filler, behind the first word of the gap
  have hend : trackItems gap3 secs ++ codedItems fs =
      (seamItems (List.replicate 64 0x4e) ++ secs.flatMap (sectorItems gap3) ++
        [⟨.seam, 0x4e⟩]) ++ codedItems (List.replicate 63 0x4e ++ fs) := by
    rw [trackItems, codedItems, codedItems, List.map_append]
    simp only [List.append_assoc]
    rfl
  refine ⟨ws, ⟨y, hcoded⟩, by omega, h.size_le, hcells, fun it hit htag => ?_,
    afterSync_trackItems, fun q hq hlt => ?_, fun hlen => ?_⟩
  · rcases List.mem_append.mp hit with hit | hit
    · exact (sound_trackItems hit).1 htag
    · exact (sound_codedItems hit).1 htag
  · have hlast : sectorsLength gap3 secs + 65 ≤ q := by omega
    have hfront : (seamItems (List.replicate 64 0x4e) ++ secs.flatMap (sectorItems gap3) ++
        [(⟨.seam, 0x4e⟩ : Item)]).length = sectorsLength gap3 secs + 65 := by
      rw [List.length_append, List.length_append, length_seamItems, List.length_replicate,
        sectorsLength, List.length_singleton]
      omega
    have hitem : (trackItems gap3 secs ++ codedItems fs)[q]? = some _ :=
      List.getElem?_eq_getElem hq
    obtain ⟨it, hit⟩ : ∃ it, it = (trackItems gap3 secs ++ codedItems fs)[q] := ⟨_, rfl⟩
    rw [← hit] at hitem ⊢
    rw [hend, List.getElem?_append_right (by omega), codedItems, List.getElem?_map] at hitem
    obtain ⟨x, _, rfl⟩ := Option.map_eq_some_iff.mp hitem
    rfl
  · have hfirst : trackItems gap3 secs ++ codedItems fs =
        ⟨.seam, 0x4e⟩ :: ⟨.coded, 0x4e⟩ :: (codedItems (List.replicate 62 0x4e) ++
          secs.flatMap (sectorItems gap3) ++ seamItems (List.replicate 64 0x4e) ++
            codedItems fs) := rfl
    rw [hfirst] at hcoded
    obtain _ | ⟨hw₀, hrest⟩ := hcoded
    obtain _ | ⟨hw₁, _⟩ := hrest
    obtain ⟨y', rfl⟩ := hw₀
    rw [show _ = mfmWord _ _ from hw₁]
    show Leads (mfmWord y' 0x4e) (mfmWord false 0x4e)
    cases y'
    · decide
    · decide

theorem long (h : d.Formatted gap3 secs fs) : ∀ s ∈ secs, 128 ≤ s.data.length := by
  intro s hs
  rw [h.data s hs]
  exact s.idam.le_size

theorem size_pos (h : d.Formatted gap3 secs fs) : 0 < d.size := by
  have hge := h.size_ge
  rw [length_trackItems] at hge
  omega

/-- A mark lies well within the track. -/
theorem mark_room (h : d.Formatted gap3 secs fs) {off : Nat} (hoff : off ∈ markOffs gap3 64 secs) :
    16 * (off + 60) ≤ d.size := by
  have hge := h.size_ge
  obtain ⟨pre, s, post, rfl, hoff⟩ := (mem_markOffs secs 64).mp hoff
  rw [length_trackItems, sectorsLength_append, sectorsLength_cons] at hge
  omega

/-- **The sync marks** are at the first and the second sync word of each of the marks
of the sectors. -/
theorem syncAt_iff (h : d.Formatted gap3 secs fs) (o : Nat) :
    d.SyncAt o ↔ ∃ off ∈ markOffs gap3 64 secs,
      o % d.size = 16 * off ∨ o % d.size = 16 * off + 16 := by
  obtain ⟨ws, htrack⟩ := h.track
  have hmarks := marksAt_filled gap3 secs fs
  rw [htrack.syncAt_iff]
  constructor
  · rintro ⟨q, hq, hlt, hsync, hsync'⟩
    obtain ⟨off, hoff, hin⟩ := (hmarks.iff q (by omega)).mp hsync
    obtain ⟨off', hoff', hin'⟩ := (hmarks.iff (q + 1) hlt).mp hsync'
    have hapart := markOffs_apart h.long hoff hoff'
    exact ⟨off, hoff, by omega⟩
  · rintro ⟨off, hoff, ho⟩
    have hinside := hmarks.inside off hoff
    rcases ho with ho | ho
    · exact ⟨off, ho, by omega, (hmarks.iff _ _).mpr ⟨off, hoff, by omega⟩,
        (hmarks.iff _ _).mpr ⟨off, hoff, by omega⟩⟩
    · exact ⟨off + 1, by omega, by omega, (hmarks.iff _ _).mpr ⟨off, hoff, by omega⟩,
        (hmarks.iff _ _).mpr ⟨off, hoff, by omega⟩⟩

/-- Between two consecutive marks there is no sync mark. -/
theorem not_syncAt_between (h : d.Formatted gap3 secs fs) {o a b : Nat}
    (ho : o % d.size = 16 * a) (hb : b ∈ markOffs gap3 64 secs)
    (hnone : ∀ c ∈ markOffs gap3 64 secs, a < c → b ≤ c) {o' : Nat} (hlo : o + 16 < o')
    (hhi : o' + 16 * a < o + 16 * b) : ¬ d.SyncAt o' := by
  rw [h.syncAt_iff]
  rintro ⟨c, hc, hmod⟩
  have hroom := h.mark_room hb
  have hsame : o' % d.size = o % d.size + (o' - o) := by
    conv => lhs; rw [show o' = o + (o' - o) by omega, Nat.add_mod]
    rw [Nat.mod_eq_of_lt (a := o' - o) (by omega), Nat.mod_eq_of_lt (by omega)]
  have hle := hnone c hc (by omega)
  omega

/-- **A read that finds a mark**: the bytes of the record, where it begins at the first
sync word, and otherwise no header. -/
theorem floppyRead_mark (h : d.Formatted gap3 secs fs) {t o off n : Nat} {r : List Byte}
    {rest : List Item} (m : Mem) (p : Nat) (hfind : d.findSync t = some o)
    (ho : o % d.size = 16 * off)
    (hdrop : (trackItems gap3 secs).drop off = recordItems r ++ rest) (hmark : 3 ≤ r.length)
    (htake : r.take 3 = mfmIdamMark.take 3) (hn : n ≤ r.length) :
    ∃ m', d.floppyRead m p n t = some (m', o) ∧ (mfmToBin m' p n).bytes p n = r.take n ∧
      (n = r.length → m'.words p n =
        List.replicate 3 syncWord ++ mfmWords true (r.drop 3)) := by
  obtain ⟨ws, htrack⟩ := h.track
  obtain ⟨hin, hdrop'⟩ := drop_filled (codedItems fs) hmark hdrop
  have hge := h.size_ge
  obtain ⟨m', hread, hwords, hbytes⟩ := htrack.floppyRead_spec m p hfind ho (n := n) (by omega)
  refine ⟨m', hread, ?_, fun hall => ?_⟩
  · rw [hbytes, hdrop', List.take_append_of_le_length (by rw [length_recordItems hmark]; exact hn),
      itemBytes, List.map_take, ← itemBytes, itemBytes_recordItems htake]
  · -- the words of the whole record
    obtain ⟨y, hcoded⟩ := htrack.coded
    rw [← List.take_append_drop off (trackItems gap3 secs ++ codedItems fs), hdrop'] at hcoded
    obtain ⟨ws₁, ws₂, hws, hcoded₁, hcoded₂⟩ := hcoded.split
    obtain ⟨wr, ws₃, rfl, hrecord, -⟩ := hcoded₂.split
    have hlen₁ : ws₁.length = off := by
      rw [hcoded₁.length_eq, List.length_take, List.length_append]
      omega
    have hrecord := words_recordItems hrecord
    rw [hwords, hws, List.drop_left' hlen₁, List.take_left' ?_, hrecord]
    rw [hrecord, List.length_append, List.length_replicate, length_mfmWords, List.length_drop]
    omega

section Headers

variable {pre post : List Sector} {s : Sector} {t o : Nat}

/-- A read at a header's first sync word yields the header. -/
theorem read_header (h : d.Formatted gap3 (pre ++ s :: post) fs) (m : Mem) (p : Nat)
    (hfind : d.findSync t = some o) (ho : o % d.size = 16 * (64 + sectorsLength gap3 pre + 12)) :
    ∃ m', d.floppyRead m p 10 t = some (m', o) ∧ (mfmToBin m' p 10).bytes p 4 = mfmIdamMark ∧
      (mfmToBin m' p 10).bytes (p + 4) 4 = s.idam.bytes ∧
      crc16Ccitt ((mfmToBin m' p 10).bytes p 10) 0xffff = 0 := by
  obtain ⟨rest, hdrop⟩ := drop_idamRecord gap3 pre post s
  obtain ⟨m', hread, hbytes, -⟩ := h.floppyRead_mark m p hfind ho hdrop (by simp) rfl
    (n := 10) (by simp)
  rw [List.take_of_length_le (by simp)] at hbytes
  refine ⟨m', hread, ?_, ?_, ?_⟩
  · have hsub := Mem.bytes_sub (mfmToBin m' p 10) p 10 0 4 (by decide)
    rw [hbytes] at hsub
    exact hsub
  · have hsub := Mem.bytes_sub (mfmToBin m' p 10) p 10 4 4 (by decide)
    rw [hbytes] at hsub
    exact hsub
  · rw [hbytes]
    exact crc16Ccitt_append_self _ _

/-- A read at a data field yields no header. -/
theorem read_dam (h : d.Formatted gap3 (pre ++ s :: post) fs) (m : Mem) (p : Nat)
    (hfind : d.findSync t = some o) (ho : o % d.size = 16 * (64 + sectorsLength gap3 pre + 56)) :
    ∃ m', d.floppyRead m p 10 t = some (m', o) ∧
      (mfmToBin m' p 10).bytes p 4 ≠ mfmIdamMark := by
  have hlong := h.long s (by simp)
  obtain ⟨rest, hdrop⟩ := drop_damRecord gap3 pre post s
  obtain ⟨m', hread, hbytes, -⟩ := h.floppyRead_mark m p hfind ho hdrop (by simp) rfl
    (n := 10) (by rw [length_damRecord]; omega)
  refine ⟨m', hread, fun hmark => ?_⟩
  have hsub := Mem.bytes_sub (mfmToBin m' p 10) p 10 0 4 (by decide)
  rw [hbytes, Nat.add_zero, hmark, List.drop_zero, List.take_take] at hsub
  exact absurd (List.cons.inj (List.cons.inj (List.cons.inj (List.cons.inj hsub).2).2).2).1
    (by decide)

/-- A read at a second sync word yields no header. -/
theorem read_second (h : d.Formatted gap3 secs fs) {off : Nat} (m : Mem) (p : Nat)
    (hfind : d.findSync t = some o) (hoff : off ∈ markOffs gap3 64 secs)
    (ho : o % d.size = 16 * off + 16) :
    ∃ m', d.floppyRead m p 10 t = some (m', o) ∧
      (mfmToBin m' p 10).bytes p 4 ≠ mfmIdamMark := by
  obtain ⟨ws, htrack⟩ := h.track
  obtain ⟨r, rest, hdrop, hr⟩ := drop_record hoff
  have hroom := h.mark_room hoff
  obtain ⟨-, hdrop⟩ := drop_filled (codedItems fs)
    (by rcases hr with ⟨s, rfl⟩ | ⟨s, rfl⟩ <;> simp) hdrop
  have hnext : ∃ x tail, x ≠ 0xa1 ∧ recordItems r = syncItems ++ ⟨.coded, x⟩ :: tail := by
    rcases hr with ⟨s, rfl⟩ | ⟨s, rfl⟩
    · exact ⟨0xfe, _, by decide, rfl⟩
    · exact ⟨0xfb, _, by decide, rfl⟩
  obtain ⟨x, tail, hx, hrecord⟩ := hnext
  obtain ⟨m', hread, -, hbytes⟩ := htrack.floppyRead_spec m p hfind
    (q := off + 1) (n := 10) (by omega) (by omega)
  have hbehind : (trackItems gap3 secs ++ codedItems fs).drop (off + 1) =
      ⟨.sync, 0xa1⟩ :: ⟨.sync, 0xa1⟩ :: ⟨.coded, x⟩ :: (tail ++ (rest ++ codedItems fs)) := by
    rw [← List.drop_drop, hdrop, hrecord]
    rfl
  refine ⟨m', hread, fun hmark => hx ?_⟩
  have hsub := Mem.bytes_sub (mfmToBin m' p 10) p 10 0 4 (by decide)
  rw [hbytes, hbehind, Nat.add_zero, hmark] at hsub
  exact (List.cons.inj (List.cons.inj (List.cons.inj hsub).2).2).1.symm

end Headers

end Disk.Formatted

end FlashFloppyTestbed
