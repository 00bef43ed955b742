/-
  Disk/AmigaRoundTrip.lean --- `amiga_track_read` reads back what
  `amiga_track_write` was given.

  The reader meets the sector headers in order, stops at the one in front of the
  track gap, and so locks to the first sector of the next revolution
  (`amigaSearch_spec`).  What it reads from there on is what was emitted, up to
  the clock bit in front (`amigaDisk_floppyRead`); with the sync longs replaced,
  it is valid MFM (`amigaFixSync_mfmCheck`).
-/
import FlashFloppyTestbed.Disk.AmigaRead
import Mathlib.Data.List.Nodup

set_option autoImplicit false

namespace FlashFloppyTestbed

open FlashFloppyTestbed.Foundation FlashFloppyTestbed.Floppy

/-! ## Replacing the sync longs -/

/-- A long that is emitted as code. -/
def AmigaLong.plain : AmigaLong → AmigaLong
  | sync => data syncLong
  | data l => data l

/-- Emitted as code, the sync long has another clock bit in each word. -/
theorem getElem?_amigaCode_plain : ∀ (xs : List AmigaLong) (pr pr' : BitVec 32) (k : Nat),
    pr.getLsbD 0 = pr'.getLsbD 0 →
    (amigaCode pr (xs.map AmigaLong.plain))[k]? =
      if xs[k]? = some .sync then some 0x44a944a9#32 else (amigaCode pr' xs)[k]?
  | [], _, _, _, _ => rfl
  | x :: xs, pr, pr', 0, h => by
    cases x with
    | sync =>
      rw [List.map_cons, amigaCode, AmigaLong.plain, carry_of_msb (by decide)]
      rfl
    | data l =>
      rw [List.map_cons, amigaCode, AmigaLong.plain, shiftLeft_last_congr h]
      rfl
  | x :: xs, pr, pr', k + 1, h => by
    have hlsb : x.plain.value.getLsbD 0 = x.value.getLsbD 0 := by
      cases x <;> rfl
    exact getElem?_amigaCode_plain xs x.plain.value x.value k hlsb

theorem getElem?_amigaCode_sync : ∀ (xs : List AmigaLong) (pr : BitVec 32) (k : Nat),
    xs[k]? = some .sync → (amigaCode pr xs)[k]? = some syncLong
  | [], _, _, h => by cases h
  | x :: xs, pr, 0, h => by
    cases h
    rw [amigaCode, AmigaLong.value, carry_of_msb (by decide)]
    rfl
  | x :: xs, _, k + 1, h => getElem?_amigaCode_sync xs x.value k h

/-- Longs that are emitted as code make code words. -/
theorem amigaCode_plain_words (pr : BitVec 32) (xs : List AmigaLong) :
    (amigaCode pr (xs.map AmigaLong.plain)).flatMap halves =
      mfmWords (pr.getLsbD 0) (xs.flatMap fun x => longBytes x.bits) := by
  have hitems : (xs.map AmigaLong.plain).flatMap AmigaLong.items =
      codedItems (xs.flatMap fun x => longBytes x.bits) := by
    rw [codedItems, List.map_flatMap, List.flatMap_map]
    congr 1
    funext x
    cases x <;> rfl
  have hcoded := coded_amigaCode pr (xs.map AmigaLong.plain)
  rw [hitems] at hcoded
  exact coded_codedItems_iff.mp hcoded

theorem amigaFixSync_succ (m : Mem) (p n : Nat) : amigaFixSync m p (n + 1) =
    ((amigaFixSync m p n).1.st32 (p + 4 * (n * 272)) (htobe32 0x44a944a9),
      (amigaFixSync m p n).2 ||
        decide ((amigaFixSync m p n).1.ld32 (p + 4 * (n * 272)) ≠ htobe32 0x44894489)) := by
  rw [amigaFixSync, List.range_succ, List.foldl_append]
  rfl

/-- The loop that replaces the sync words stores to nothing else. -/
theorem amigaFixSync_frame (m : Mem) (p : Nat) {a : Nat} :
    ∀ n, (∀ i < n, a < p + 4 * (i * 272) ∨ p + 4 * (i * 272) + 4 ≤ a) →
      (amigaFixSync m p n).1 a = m a := by
  intro n
  induction n with
  | zero => exact fun _ => rfl
  | succ n ih =>
    intro h
    rw [amigaFixSync_succ, ← ih fun i hi => h i (Nat.lt_succ_of_lt hi)]
    rcases h n (Nat.lt_succ_self n) with hlt | hge
    · exact Mem.st32_of_lt _ _ hlt
    · exact Mem.st32_of_le _ _ hge

/-- **The loop that replaces the sync words** leaves the other longs alone. -/
theorem amigaFixSync_long (m : Mem) (p n k : Nat) : (amigaFixSync m p n).1.long (p + 4 * k) =
    if ∃ i, i < n ∧ k = i * 272 then 0x44a944a9 else m.long (p + 4 * k) := by
  induction n with
  | zero =>
    rw [if_neg (by omega)]
    rfl
  | succ n ih =>
    rw [amigaFixSync_succ]
    by_cases hk : k = n * 272
    · subst hk
      rw [Mem.long_st32_htobe32, if_pos ⟨n, by omega, rfl⟩]
    · rw [Mem.long_st32_of_ne _ _ (by omega), ih]
      refine if_congr ⟨fun ⟨i, hi, hik⟩ => ⟨i, by omega, hik⟩, fun ⟨i, hi, hik⟩ => ?_⟩ rfl rfl
      have hne : i ≠ n := fun heq => hk (by rw [hik, heq])
      exact ⟨i, by omega, hik⟩

/-- It reports nothing where the sync words are. -/
theorem amigaFixSync_warned {m : Mem} {p n : Nat}
    (h : ∀ i, i < n → m.long (p + 4 * (i * 272)) = syncLong) : (amigaFixSync m p n).2 = false := by
  induction n with
  | zero => rfl
  | succ n ih =>
    have hsync : (amigaFixSync m p n).1.long (p + 4 * (n * 272)) = syncLong := by
      rw [amigaFixSync_long, if_neg (by omega), h n (by omega)]
    have hraw : (amigaFixSync m p n).1.ld32 (p + 4 * (n * 272)) = htobe32 0x44894489 := by
      rw [← show syncLong = 0x44894489 from rfl, ← hsync, Mem.long, be32toh, htobe32, rev32_rev32]
    rw [amigaFixSync_succ, ih fun i hi => h i (by omega), hraw]
    simp

/-- The sectors stay as they are behind their sync longs. -/
theorem SectorAt.fixSync {m : Mem} {p n i : Nat} {ls : List (BitVec 32)}
    (h : SectorAt m (p + 4 * (272 * i)) ls) :
    SectorAt (amigaFixSync m p n).1 (p + 4 * (272 * i)) ls := by
  have hlongs : (amigaFixSync m p n).1.longs (p + 4 * (272 * i) + 4) 270 =
      m.longs (p + 4 * (272 * i) + 4) 270 := by
    refine List.map_congr_left fun j hj => ?_
    rw [List.mem_range] at hj
    rw [show p + 4 * (272 * i) + 4 + 4 * j = p + 4 * (272 * i + 1 + j) by omega, amigaFixSync_long,
      if_neg (by omega)]
  rw [SectorAt, hlongs]
  exact h

/-! ## Reading from the revolution -/

section Reading

variable {buf m : Mem} {track nsec n p k : Nat} {pr : BitVec 32} {xs : List AmigaLong}

/-- A part of the emitted longs is emitted behind some long. -/
theorem amigaCode_drop_take (pr : BitVec 32) (xs : List AmigaLong) (a k : Nat) :
    ∃ pr', ((amigaCode pr xs).drop a).take k = amigaCode pr' ((xs.drop a).take k) := by
  rcases Nat.lt_or_ge xs.length a with hlt | hle
  · refine ⟨0, ?_⟩
    rw [List.drop_of_length_le (by simpa using Nat.le_of_lt hlt),
      List.drop_of_length_le (Nat.le_of_lt hlt), List.take_nil, List.take_nil]
    rfl
  · refine ⟨lastLong pr (xs.take a), ?_⟩
    conv => lhs; rw [← List.take_append_drop a xs, amigaCode_append]
    rw [List.drop_left' (by simpa using hle)]
    conv => lhs; rw [← List.take_append_drop k (xs.drop a), amigaCode_append]
    rcases Nat.lt_or_ge (xs.drop a).length k with hlt | hle
    · rw [List.drop_of_length_le (Nat.le_of_lt hlt), amigaCode, List.append_nil,
        List.take_of_length_le (by simp)]
    · rw [List.take_left' (by simpa using hle)]

/-- **A read from a sync mark on** yields the emitted longs. -/
theorem amigaDisk_floppyRead (hn : 0 < n) {t o s : Nat} (m : Mem) (p : Nat)
    (hfind : (amigaDisk buf track nsec n).findSync t = some o)
    (ho : o % (amigaDisk buf track nsec n).size = 32 * (33 + 272 * s))
    (hk : 33 + 272 * s + k ≤ 32 + 272 * nsec + n) :
    ∃ m' pr, (amigaDisk buf track nsec n).floppyRead m p (2 * k) t = some (m', o) ∧
      m'.longs p k =
        amigaCode pr (((trackLongs buf track nsec n).drop (33 + 272 * s)).take k) := by
  have hsize := amigaDisk_size buf track nsec n
  obtain ⟨m', hread, hwords, -⟩ := (amigaDisk_track hn).floppyRead_spec m p hfind
    (q := 2 * (33 + 272 * s)) (n := 2 * k) (by omega) (by omega)
  obtain ⟨pr, hpr⟩ := amigaCode_drop_take 0 (trackLongs buf track nsec n) (33 + 272 * s) k
  refine ⟨m', pr, hread, ?_⟩
  rw [drop_blocks length_halves, take_blocks length_halves, hpr,
    ← Mem.longs_flatMap_halves] at hwords
  refine blocks_injective length_halves halves_injective ?_ hwords
  rw [Mem.length_longs, length_amigaCode, List.length_take, List.length_drop, length_trackLongs]
  omega

/-- The data bits of a long that was read. -/
theorem long_dataBits (h : m.longs p k = amigaCode pr xs) {j : Nat} {x : AmigaLong}
    (hx : xs[j]? = some x) : m.long (p + 4 * j) &&& dataBits = x.bits &&& dataBits := by
  have hlen : k = xs.length := by
    rw [← Mem.length_longs m p k, h, length_amigaCode]
  have hj : j < k := hlen ▸ (List.getElem?_eq_some_iff.mp hx).1
  have hget := congrArg (·[j]?) (congrArg (List.map (· &&& dataBits)) h)
  simp only [map_amigaCode_dataBits, List.getElem?_map, hx, Option.map_some] at hget
  rw [List.getElem?_eq_getElem (by simpa using hj), Mem.getElem_longs, Option.map_some] at hget
  exact Option.some.inj hget

/-- The longs behind a sync mark of the track. -/
theorem getElem?_behind_sync {s i j : Nat} (hs : s + i < nsec) (hj : j < 271)
    (hk : 272 * i + j < k) :
    (((trackLongs buf track nsec n).drop (33 + 272 * s)).take k)[272 * i + j]? =
      (sectorLongs buf track nsec (s + i))[j + 1]? := by
  rw [List.getElem?_take_of_lt hk, List.getElem?_drop,
    show 33 + 272 * s + (272 * i + j) = 32 + (272 * (s + i) + (j + 1)) by omega,
    getElem?_trackLongs hs (by omega)]

theorem sectorAt_of_longs {s i : Nat}
    (h : m.longs p k = amigaCode pr (((trackLongs buf track nsec n).drop (33 + 272 * s)).take k))
    (hs : s + i < nsec) (hk : 272 * i + 271 ≤ k) :
    SectorAt m (p + 4 * (272 * i)) (sectorData buf track nsec (s + i)) := by
  refine List.ext_getElem (by simp) fun j hj hj' => ?_
  rw [List.length_map, length_sectorData] at hj'
  have hin : j < (sectorData buf track nsec (s + i)).length := by simpa using hj'
  have hx : (sectorLongs buf track nsec (s + i))[j + 1 + 1]? =
      some (.data (sectorData buf track nsec (s + i))[j]) := by
    rw [sectorLongs, List.getElem?_cons_succ, List.getElem?_cons_succ, List.getElem?_map,
      List.getElem?_eq_getElem hin, Option.map_some]
  have hbits := long_dataBits h (j := 272 * i + (j + 1))
    ((getElem?_behind_sync hs (by omega) (by omega)).trans hx)
  rw [List.getElem_map, List.getElem_map, Mem.getElem_longs,
    show p + 4 * (272 * i) + 4 + 4 * j = p + 4 * (272 * i + (j + 1)) by omega]
  exact hbits

/-- **With its sync longs replaced, the track is valid MFM**, whatever was in front. -/
theorem amigaFixSync_mfmCheck (h : m.longs p k = amigaCode pr xs) (hlen : xs.length = k)
    (hsync : ∀ j, xs[j]? = some .sync ↔ ∃ i, i < nsec ∧ j = i * 272) (hfirst : 0 < nsec) :
    (amigaFixSync m p nsec).2 = false ∧ mfmCheck (amigaFixSync m p nsec).1 p (2 * k) = [] := by
  have hmarks : ∀ i, i < nsec → m.long (p + 4 * (i * 272)) = syncLong := by
    intro i hi
    have hx := (hsync (i * 272)).mpr ⟨i, hi, rfl⟩
    have hj := (List.getElem?_eq_some_iff.mp hx).1
    have hget := getElem?_amigaCode_sync xs pr (i * 272) hx
    rw [← h, List.getElem?_eq_getElem (by rw [Mem.length_longs]; omega), Mem.getElem_longs] at hget
    exact Option.some.inj hget
  refine ⟨amigaFixSync_warned hmarks, ?_⟩
  have hplain : (amigaFixSync m p nsec).1.longs p k = amigaCode pr (xs.map AmigaLong.plain) := by
    refine List.ext_getElem? fun j => ?_
    rw [getElem?_amigaCode_plain xs pr pr j rfl, ← h]
    rcases Nat.lt_or_ge j k with hj | hj
    · rw [List.getElem?_eq_getElem (by simpa using hj),
        List.getElem?_eq_getElem (l := m.longs p k) (by simpa using hj), Mem.getElem_longs,
        Mem.getElem_longs, amigaFixSync_long]
      simp only [hsync]
      split <;> rfl
    · rw [List.getElem?_eq_none (by simpa using hj),
        List.getElem?_eq_none (l := m.longs p k) (by simpa using hj),
        List.getElem?_eq_none (l := xs) (by omega), if_neg (by simp)]
  have hwords := amigaCode_plain_words pr xs
  rw [← hplain, Mem.longs_flatMap_halves] at hwords
  -- the first byte of the track has its first bit set
  obtain ⟨rest, hrest⟩ : ∃ rest, xs = .sync :: rest := by
    have hx := (hsync 0).mpr ⟨0, hfirst, rfl⟩
    cases xs with
    | nil => cases hx
    | cons x rest => cases hx; exact ⟨rest, rfl⟩
  refine mfmCheck_eq_nil (l := xs.flatMap fun x => longBytes x.bits) (hwords.trans ?_)
  rw [hrest, List.flatMap_cons]
  show mfmWord _ 0xa1 :: _ = mfmWord _ 0xa1 :: _
  rw [mfmWord_of_msb (by decide)]

/-- The longs that are read behind the first sync mark, up to the track gap. -/
theorem length_trackWindow (hk : k + 1 = 272 * nsec) :
    (((trackLongs buf track nsec n).drop 33).take k).length = k := by
  rw [List.length_take, List.length_drop, length_trackLongs]
  omega

theorem trackWindow_sync_iff (hk : k + 1 = 272 * nsec) (j : Nat) :
    (((trackLongs buf track nsec n).drop 33).take k)[j]? = some .sync ↔
      ∃ i, i < nsec ∧ j = i * 272 := by
  rcases Nat.lt_or_ge j k with hj | hj
  · rw [List.getElem?_take_of_lt hj, List.getElem?_drop, trackLongs_eq_sync_iff]
    exact exists_congr fun i => and_congr_right fun _ => by omega
  · rw [List.getElem?_eq_none (by rw [List.length_take]; omega)]
    exact ⟨fun h => (by cases h), fun ⟨i, hi, hij⟩ => by omega⟩

theorem trackWindow_sectorAt (hk : k + 1 = 272 * nsec)
    (h : m.longs p k = amigaCode pr (((trackLongs buf track nsec n).drop 33).take k)) {i : Nat}
    (hi : i < nsec) : SectorAt (amigaFixSync m p nsec).1 (p + 4 * (272 * i))
      (sectorData buf track nsec i) := by
  have hat := sectorAt_of_longs (s := 0) (i := i) h (by omega) (by omega)
  rw [Nat.zero_add] at hat
  exact hat.fixSync

end Reading

/-! ## The search -/

section Search

variable {buf : Mem} {track nsec n : Nat}

/-- Sync marks are far apart. -/
theorem amigaDisk_apart (hn : 0 < n) {o o' : Nat}
    (hsync : (amigaDisk buf track nsec n).SyncAt o)
    (hsync' : (amigaDisk buf track nsec n).SyncAt o') (hlt : o < o') : o + 96 ≤ o' := by
  by_contra hnear
  have hsize := amigaDisk_size buf track nsec n
  obtain ⟨s, hs, hmod⟩ := (amigaDisk_syncAt_iff hn o).mp hsync
  obtain ⟨s', hs', hmod'⟩ := (amigaDisk_syncAt_iff hn o').mp hsync'
  have hstep := mod_of_le (amigaDisk buf track nsec n).size (Nat.le_of_lt hlt) (by omega)
  omega

/-- The header that is read at a sync mark. -/
theorem amigaDisk_info (hn : 0 < n) {t o s : Nat} (m : Mem) (p : Nat) (hs : s < nsec)
    (hfind : (amigaDisk buf track nsec n).findSync t = some o)
    (ho : o % (amigaDisk buf track nsec n).size = 32 * (33 + 272 * s)) :
    ∃ m', (amigaDisk buf track nsec n).floppyRead m p 6 t = some (m', o) ∧
      getLong m' (p + 4) = amigaInfo track nsec s := by
  obtain ⟨m', pr, hread, hlongs⟩ := amigaDisk_floppyRead hn (k := 3) m p hfind ho (by omega)
  refine ⟨m', hread, ?_⟩
  have heven := long_dataBits hlongs (getElem?_behind_sync (i := 0) (j := 1) hs (by decide)
    (by decide))
  have hodd := long_dataBits hlongs (getElem?_behind_sync (i := 0) (j := 2) hs (by decide)
    (by decide))
  rw [getLong_eq, ← mergeBits_even_odd (amigaInfo track nsec s)]
  exact mergeBits_congr heven hodd

/-- **The first loop of `amiga_track_read`** ends at the header of the last sector. -/
theorem amigaSearch_spec (hn : 0 < n) (htrack : track ≤ 255) (hpos : 0 < nsec) (hnsec : nsec ≤ 255)
    {resume : Nat → Nat} (hresume : (amigaDisk buf track nsec n).Timely 6 resume) (p : Nat)
    {t₀ o : Nat} (hnear : o < t₀ + (amigaDisk buf track nsec n).size)
    (ho : o % (amigaDisk buf track nsec n).size = 32 * (33 + 272 * (nsec - 1))) :
    ∀ (fuel t : Nat) (m : Mem), t₀ ≤ t → t ≤ o → o < t + fuel →
      ∃ m', amigaSearch (amigaDisk buf track nsec n) resume p t₀ fuel t m false =
        some ⟨m', o + 96, false⟩ := by
  have hsize := amigaDisk_size buf track nsec n
  have hsync : (amigaDisk buf track nsec n).SyncAt o :=
    (amigaDisk_syncAt_iff hn o).mpr ⟨nsec - 1, by omega, ho⟩
  refine Disk.search_rule (by decide) hresume hsync
    (fun o' hsync' hlt => amigaDisk_apart hn hsync' hsync hlt) (by omega)
    (fun fuel t m ht₀ hle hfind => ?_) fun fuel t m o' ht₀ hle hfind hsync' hlt ih => ?_
  · obtain ⟨m', hread, hinfo⟩ := amigaDisk_info hn m p (by omega) hfind ho
    have htogo := (amigaInfo_fields htrack (show nsec - 1 < nsec by omega) hnsec).2.2.2
    refine ⟨m', ?_⟩
    rw [amigaSearch, Disk.not_two_indexes hle hnear, hread]
    refine if_neg (not_not_intro (BitVec.eq_of_toNat_eq ?_))
    rw [hinfo, htogo]
    show nsec - (nsec - 1) = 1
    omega
  · obtain ⟨s, hs, hmod⟩ := (amigaDisk_syncAt_iff hn o').mp hsync'
    obtain ⟨m', hread, hinfo⟩ := amigaDisk_info hn m p hs hfind hmod
    have htogo := (amigaInfo_fields htrack hs hnsec).2.2.2
    obtain ⟨m'', hrest⟩ := ih m'
    refine ⟨m'', ?_⟩
    rw [amigaSearch, Disk.not_two_indexes hle hnear, hread]
    refine (if_pos fun hone => ?_).trans hrest
    -- not the last sector, which is met at `o`
    rw [hinfo] at hone
    rw [hone] at htogo
    have hlast : s = nsec - 1 := by
      have htogo : 1 = nsec - s := htogo
      omega
    rw [hlast] at hmod
    have hle' := Disk.le_of_findSync hfind
    have hstep := mod_of_le (amigaDisk buf track nsec n).size (Nat.le_of_lt hlt)
      (by omega)
    omega

/-- **`amiga_track_read`** locks to the first sector, warns of nothing, and leaves the
data that the track was written with. -/
theorem amigaTrackRead_spec (hn : 0 < n) (htrack : track ≤ 255) (hpos : 0 < nsec)
    (hnsec : nsec ≤ 255) {resume : Nat → Nat}
    (hresume : (amigaDisk buf track nsec n).Timely 6 resume) {fuel : Nat}
    (hfuel : (amigaDisk buf track nsec n).size ≤ fuel) (m : Mem) (p : Nat) (out : Mem) (t : Nat) :
    ∃ r, amigaTrackRead (amigaDisk buf track nsec n) resume fuel m p out track nsec t = some r ∧
      r.warned = false ∧ r.lock % (amigaDisk buf track nsec n).size = 32 * 33 ∧
      r.buf.bytes 0 (512 * nsec) = buf.bytes 0 (512 * nsec) := by
  have hsize := amigaDisk_size buf track nsec n
  -- the header of the last sector
  obtain ⟨o, hlo, hhi, ho⟩ := exists_next
    (show 32 * (33 + 272 * (nsec - 1)) < (amigaDisk buf track nsec n).size by omega) t
  obtain ⟨m₁, hsearch⟩ := amigaSearch_spec hn htrack hpos hnsec hresume p hhi ho fuel t m
    (Nat.le_refl t) hlo (by omega)
  have hsync := (amigaDisk_syncAt_iff hn o).mpr ⟨nsec - 1, by omega, ho⟩
  -- the first sector behind it
  obtain ⟨o', ho'⟩ : ∃ o', o' + 32 * (272 * (nsec - 1)) = o + (amigaDisk buf track nsec n).size :=
    ⟨o + (amigaDisk buf track nsec n).size - 32 * (272 * (nsec - 1)), by omega⟩
  have hmod : o' % (amigaDisk buf track nsec n).size = 32 * (33 + 272 * 0) := by
    have hdiv := Nat.div_add_mod o (amigaDisk buf track nsec n).size
    have hnext := Nat.mul_add_one (amigaDisk buf track nsec n).size
      (o / (amigaDisk buf track nsec n).size)
    have heq : o' = 32 * 33 + (amigaDisk buf track nsec n).size *
        (o / (amigaDisk buf track nsec n).size + 1) := by
      omega
    rw [heq, Nat.add_mul_mod_self_left, Nat.mod_eq_of_lt (by omega)]
  have hsync' := (amigaDisk_syncAt_iff hn o').mpr ⟨0, hpos, hmod⟩
  have hge : o + 96 ≤ resume (o + 96) := (hresume o hsync).1
  have hle : resume (o + 96) ≤ o' := Disk.resume_le hresume hsync hsync' (by omega)
  have hfind := Disk.findSync_eq hsync' hle (fun o'' hlo hhi hsync'' => by
    obtain ⟨s, hs, hmod'⟩ := (amigaDisk_syncAt_iff hn o'').mp hsync''
    have hstep := mod_of_le (amigaDisk buf track nsec n).size
      (show o ≤ o'' by omega) (by omega)
    omega) (by omega)
  -- the track
  obtain ⟨k, hk⟩ : ∃ k, k + 1 = 272 * nsec := ⟨272 * nsec - 1, by omega⟩
  have hwords : 544 * nsec - 2 = 2 * k := by omega
  obtain ⟨m₂, pr, hread, hlongs⟩ := amigaDisk_floppyRead hn (k := k) m₁ p hfind hmod (by omega)
  obtain ⟨hwarned, hcheck⟩ :=
    amigaFixSync_mfmCheck hlongs (length_trackWindow hk) (trackWindow_sync_iff hk) hpos
  obtain ⟨r, hr, hwarned', hbuf⟩ :=
    foldl_sector out false htrack hnsec (fun i hi => trackWindow_sectorAt hk hlongs hi) nsec
      (Nat.le_refl nsec)
  refine ⟨⟨r.buf, r.warned, o'⟩, ?_, hwarned', hmod, hbuf⟩
  rw [amigaTrackRead, hsearch]
  simp only [Option.bind_some, hwords, hread, Option.map_some, hwarned, hcheck, Bool.or_false,
    ne_eq, not_true_eq_false, decide_false, hr]

/-- The sync mark is at `nsec` bit offsets of the revolution. -/
theorem amigaDisk_count (hn : 0 < n) :
    ((List.range (amigaDisk buf track nsec n).size).filter fun o =>
      decide ((amigaDisk buf track nsec n).SyncAt o)).length = nsec := by
  have hsize := amigaDisk_size buf track nsec n
  have hperm : ((List.range (amigaDisk buf track nsec n).size).filter fun o =>
      decide ((amigaDisk buf track nsec n).SyncAt o)).Perm
        ((List.range nsec).map fun s => 32 * (33 + 272 * s)) := by
    refine (List.perm_ext_iff_of_nodup (List.Nodup.filter _ List.nodup_range)
      (List.Nodup.map (fun s s' heq => by simpa using heq) List.nodup_range)).mpr fun o => ?_
    rw [List.mem_filter, List.mem_range, decide_eq_true_iff, amigaDisk_syncAt_iff hn, List.mem_map]
    constructor
    · rintro ⟨hlt, s, hs, ho⟩
      rw [Nat.mod_eq_of_lt hlt] at ho
      exact ⟨s, List.mem_range.mpr hs, ho.symm⟩
    · rintro ⟨s, hs, rfl⟩
      rw [List.mem_range] at hs
      exact ⟨by omega, s, hs, Nat.mod_eq_of_lt (by omega)⟩
  rw [hperm.length_eq, List.length_map, List.length_range]

end Search

/-- **An Amiga track comes back.**  What `amiga_track_write` hands to the write path,
repeated circularly, holds the sync mark at `nsec` bit offsets, and
`amiga_track_read`, started anywhere on it, locks to sector 0, warns of nothing and
leaves the bytes that were written. -/
theorem amiga_track_round_trip (m : Mem) (p : Nat) (buf : Mem) {track nsec : Nat}
    (htrack : track ≤ 255) (hnsec : nsec = 11 ∨ nsec = 22) :
    ∃ w, amigaTrackWrite m p buf track nsec = some w ∧ ∀ d, d = Disk.ofBits (w.2.bits w.1) →
      ((List.range d.size).filter fun o => decide (d.SyncAt o)).length = nsec ∧
      ∀ resume, d.Timely 6 resume → ∀ fuel, d.size ≤ fuel → ∀ (m' : Mem) (p' : Nat) (out : Mem)
        (t : Nat), ∃ r, amigaTrackRead d resume fuel m' p' out track nsec t = some r ∧
          r.warned = false ∧ r.lock % d.size = 32 * (32 + 1) ∧
          r.buf.bytes 0 (512 * nsec) = buf.bytes 0 (512 * nsec) := by
  obtain ⟨w, n, hwrite, hn, hbits⟩ := amigaTrackWrite_spec m p buf track hnsec
  refine ⟨w, hwrite, fun d hd => ?_⟩
  rw [hbits] at hd
  subst hd
  exact ⟨amigaDisk_count hn, fun resume hresume fuel hfuel m' p' out t =>
    amigaTrackRead_spec hn htrack (by omega) (by omega) hresume hfuel m' p' out t⟩

/-- A double-density track, written and read by a program that takes no time between its
reads. -/
theorem amiga_track_round_trip_dd :
    ∃ w r, amigaTrackWrite (fun _ => 0) 0 (fun a => BitVec.ofNat 8 a) 5 11 = some w ∧
      amigaTrackRead (Disk.ofBits (w.2.bits w.1)) id (Disk.ofBits (w.2.bits w.1)).size
        (fun _ => 0) 0 (fun _ => 0) 5 11 1234 = some r ∧ r.warned = false ∧
      r.buf.bytes 0 (512 * 11) = Mem.bytes (fun a => BitVec.ofNat 8 a) 0 (512 * 11) := by
  obtain ⟨w, hwrite, h⟩ := amiga_track_round_trip (fun _ => 0) 0 (fun a => BitVec.ofNat 8 a)
    (show 5 ≤ 255 by decide) (show 11 = 11 ∨ 11 = 22 from .inl rfl)
  obtain ⟨r, hread, hwarned, -, hbuf⟩ := (h _ rfl).2 id (fun _ _ => ⟨Nat.le_refl _,
    fun _ hle hlt => absurd hlt (Nat.not_lt_of_le hle)⟩) _ (Nat.le_refl _) (fun _ => 0) 0
      (fun _ => 0) 1234
  exact ⟨w, r, hwrite, hread, hwarned, hbuf⟩

end FlashFloppyTestbed
