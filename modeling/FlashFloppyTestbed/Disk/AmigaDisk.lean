/-
  Disk/AmigaDisk.lean --- the revolution after `amiga_track_write`, and where it
  holds the sync mark: once for each sector (`amigaDisk_syncAt_iff`).
-/
import FlashFloppyTestbed.Disk.AmigaCode

set_option autoImplicit false

namespace FlashFloppyTestbed

open FlashFloppyTestbed.Foundation FlashFloppyTestbed.Floppy

/-- The revolution after `amiga_track_write`. -/
def amigaDisk (buf : Mem) (track nsec n : Nat) : Disk :=
  Disk.ofBits ((amigaCode 0 (trackLongs buf track nsec n)).flatMap bitsOf)

section Positions

variable {buf : Mem} {track nsec n : Nat}

theorem getElem?_trackLongs {s j : Nat} (hs : s < nsec) (hj : j < 272) :
    (trackLongs buf track nsec n)[32 + (272 * s + j)]? = (sectorLongs buf track nsec s)[j]? := by
  have hlen : ((List.range nsec).flatMap (sectorLongs buf track nsec)).length = 272 * nsec := by
    rw [length_blocks (length_sectorLongs buf track nsec), List.length_range]
  rw [trackLongs, List.append_assoc, List.getElem?_append_right (by simp), List.length_replicate,
    Nat.add_sub_cancel_left, List.getElem?_append_left (by omega),
    getElem?_blocks (length_sectorLongs buf track nsec) (by simpa using hs) hj, List.getElem_range]

/-- The sync longs are the second ones of the sectors. -/
theorem trackLongs_eq_sync_iff {k : Nat} :
    (trackLongs buf track nsec n)[k]? = some .sync ↔ ∃ s, s < nsec ∧ k = 33 + 272 * s := by
  constructor
  · intro hk
    have hlen := length_trackLongs buf track nsec n
    have hlt : k < (trackLongs buf track nsec n).length := (List.getElem?_eq_some_iff.mp hk).1
    by_cases hfront : k < 32
    · rw [trackLongs, List.append_assoc, List.getElem?_append_left (by simpa using hfront),
        List.getElem?_replicate, if_pos hfront] at hk
      cases hk
    by_cases hback : 32 + 272 * nsec ≤ k
    · rw [trackLongs, List.getElem?_append_right (by
        rw [List.length_append, List.length_replicate,
          length_blocks (length_sectorLongs buf track nsec), List.length_range]
        exact hback), List.getElem?_replicate] at hk
      split at hk <;> cases hk
    obtain ⟨s, j, hs, hj, rfl⟩ : ∃ s j, s < nsec ∧ j < 272 ∧ k = 32 + (272 * s + j) :=
      ⟨(k - 32) / 272, (k - 32) % 272, by omega, by omega, by omega⟩
    rw [getElem?_trackLongs hs hj, sectorLongs] at hk
    obtain _ | _ | j := j
    · cases hk
    · exact ⟨s, hs, by omega⟩
    · rw [List.getElem?_cons_succ, List.getElem?_cons_succ, List.getElem?_map] at hk
      obtain ⟨l, _, hl⟩ := Option.map_eq_some_iff.mp hk
      cases hl
  · rintro ⟨s, hs, rfl⟩
    rw [show 33 + 272 * s = 32 + (272 * s + 1) by omega, getElem?_trackLongs hs (by decide)]
    rfl

end Positions

section Items

variable {xs : List AmigaLong}

/-- An item, by its long. -/
theorem getElem?_items {q : Nat} (hq : q < (xs.flatMap AmigaLong.items).length) :
    ∃ x, xs[q / 2]? = some x ∧ x.items[q % 2]? = some ((xs.flatMap AmigaLong.items)[q]) := by
  have hlen := length_blocks AmigaLong.length_items xs
  have hblock := getElem?_blocks AmigaLong.length_items (l := xs) (k := q / 2) (i := q % 2)
    (by omega) (by omega)
  rw [Nat.div_add_mod, List.getElem?_eq_getElem hq] at hblock
  exact ⟨_, List.getElem?_eq_getElem (by omega), hblock.symm⟩

/-- What an item of a long may be. -/
theorem items_cases {x : AmigaLong} {i : Nat} {it : Item} (hit : x.items[i]? = some it) :
    x = .sync ∧ it = ⟨.sync, 0xa1⟩ ∨ ∃ l b, x = .data l ∧ (longBytes l)[i]? = some b ∧
      it = ⟨.coded, b⟩ := by
  cases x with
  | sync =>
    refine .inl ⟨rfl, ?_⟩
    have hmem := List.mem_of_getElem? hit
    rw [AmigaLong.items, List.mem_cons, List.mem_singleton] at hmem
    exact hmem.elim id id
  | data l =>
    rw [AmigaLong.items, codedItems, List.getElem?_map] at hit
    obtain ⟨b, hb, rfl⟩ := Option.map_eq_some_iff.mp hit
    exact .inr ⟨l, b, rfl, hb, rfl⟩

/-- The sync items are those of the sync longs. -/
theorem items_sync_iff {q : Nat} (hq : q < (xs.flatMap AmigaLong.items).length) :
    ((xs.flatMap AmigaLong.items)[q]).tag = .sync ↔ xs[q / 2]? = some .sync := by
  obtain ⟨x, hx, hit⟩ := getElem?_items hq
  rw [hx]
  rcases items_cases hit with ⟨rfl, heq⟩ | ⟨l, b, rfl, _, heq⟩ <;> rw [heq] <;> simp

end Items

section Track

variable {buf : Mem} {track nsec n : Nat}

/-- The longs of the revolution. -/
theorem amigaDisk_size (buf : Mem) (track nsec n : Nat) :
    (amigaDisk buf track nsec n).size = 32 * (32 + 272 * nsec + n) := by
  rw [amigaDisk, Disk.ofBits, length_flatMap_bitsOf, length_amigaCode, length_trackLongs]

theorem amigaInfo_msb (track nsec sec : Nat) : (amigaInfo track nsec sec).getMsbD 0 = true := by
  rw [amigaInfo, BitVec.getMsbD_or, BitVec.getMsbD_or, BitVec.getMsbD_or]
  rfl

/-- The item behind a sync item. -/
theorem byte_behind_sync {q : Nat}
    (hq : q + 1 < ((trackLongs buf track nsec n).flatMap AmigaLong.items).length)
    (hsync : (((trackLongs buf track nsec n).flatMap AmigaLong.items)[q]).tag = .sync) :
    (((trackLongs buf track nsec n).flatMap AmigaLong.items)[q + 1]).byte ≠ 0x41 := by
  obtain ⟨s, hs, hk⟩ := trackLongs_eq_sync_iff.mp ((items_sync_iff (by omega)).mp hsync)
  obtain ⟨x, hx, hit⟩ := getElem?_items hq
  rcases items_cases hit with ⟨-, heq⟩ | ⟨l, b, rfl, hb, heq⟩
  · rw [heq]
    decide
  · -- the first byte of the info longword
    rw [heq]
    rintro rfl
    have hodd : q % 2 = 1 := by
      by_contra heven
      rw [show (q + 1) / 2 = q / 2 by omega, trackLongs_eq_sync_iff.mpr ⟨s, hs, hk⟩] at hx
      cases hx
    rw [show (q + 1) / 2 = 32 + (272 * s + 2) by omega, getElem?_trackLongs hs (by decide)] at hx
    cases hx
    rw [show (q + 1) % 2 = 0 by omega] at hb
    have hfirst := (longBytes_getMsbD (even (amigaInfo track nsec s)) (k := 0) (by decide)).1
    rw [show mfmtobin ((even (amigaInfo track nsec s)).extractLsb' 16 16) = 0x41 from
      Option.some.inj hb, even, BitVec.getMsbD_ushiftRight, amigaInfo_msb] at hfirst
    exact absurd hfirst (by decide)

/-- **The revolution is a track.** -/
theorem amigaDisk_track (hn : 0 < n) :
    (amigaDisk buf track nsec n).Track ((trackLongs buf track nsec n).flatMap AmigaLong.items)
      ((amigaCode 0 (trackLongs buf track nsec n)).flatMap halves) := by
  have hlen : ((trackLongs buf track nsec n).flatMap AmigaLong.items).length =
      2 * (32 + 272 * nsec + n) := by
    rw [length_blocks AmigaLong.length_items, length_trackLongs]
  have hsize := amigaDisk_size buf track nsec n
  refine ⟨⟨_, coded_amigaCode 0 _⟩, by omega, by omega, fun r hr hlt => ?_, fun it hit htag => ?_,
    fun q => byte_behind_sync, fun q hq hlt => ?_, fun hlen => ?_⟩
  · have hcell := getElem?_flatMap_bitsOf _ r hlt
    rw [flatMap_halves_flatMap_bitsOf] at hcell
    show List.getD _ r false = _
    rw [List.getD_eq_getElem?_getD, hcell]
    rfl
  · obtain ⟨x, _, hx⟩ := List.mem_flatMap.mp hit
    obtain ⟨i, hi⟩ := List.mem_iff_getElem?.mp hx
    rcases items_cases hi with ⟨-, rfl⟩ | ⟨l, b, -, -, rfl⟩ <;> cases htag
  · -- the end of the pre-index gap
    obtain ⟨x, hx, hit⟩ := getElem?_items hq
    rcases items_cases hit with ⟨rfl, -⟩ | ⟨l, b, -, -, heq⟩
    · obtain ⟨s, hs, hk⟩ := trackLongs_eq_sync_iff.mp hx
      omega
    · rw [heq]
  · -- the beginning of the post-index gap
    have hfirst : ∃ rest, (amigaCode 0 (trackLongs buf track nsec n)).flatMap halves =
        0xaaaa :: 0xaaaa :: rest := ⟨_, rfl⟩
    obtain ⟨rest, hrest⟩ := hfirst
    simp only [hrest]
    show Leads 0xaaaa 0xaaaa
    decide

/-- **The sync marks** of the revolution: one for each sector. -/
theorem amigaDisk_syncAt_iff (hn : 0 < n) (o : Nat) :
    (amigaDisk buf track nsec n).SyncAt o ↔
      ∃ s, s < nsec ∧ o % (amigaDisk buf track nsec n).size = 32 * (33 + 272 * s) := by
  have hlen : ((trackLongs buf track nsec n).flatMap AmigaLong.items).length =
      2 * (32 + 272 * nsec + n) := by
    rw [length_blocks AmigaLong.length_items, length_trackLongs]
  rw [(amigaDisk_track hn).syncAt_iff]
  constructor
  · rintro ⟨q, hq, hlt, hsync, hsync'⟩
    obtain ⟨s, hs, hk⟩ := trackLongs_eq_sync_iff.mp ((items_sync_iff (by omega)).mp hsync)
    obtain ⟨s', hs', hk'⟩ := trackLongs_eq_sync_iff.mp ((items_sync_iff hlt).mp hsync')
    exact ⟨s, hs, by omega⟩
  · rintro ⟨s, hs, ho⟩
    refine ⟨2 * (33 + 272 * s), by omega, by omega, (items_sync_iff (by omega)).mpr ?_,
      (items_sync_iff (by omega)).mpr ?_⟩
    · exact trackLongs_eq_sync_iff.mpr ⟨s, hs, by omega⟩
    · exact trackLongs_eq_sync_iff.mpr ⟨s, hs, by omega⟩

end Track

end FlashFloppyTestbed
