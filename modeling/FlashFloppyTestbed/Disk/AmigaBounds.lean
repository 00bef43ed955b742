/-
  Disk/AmigaBounds.lean --- where `amiga_track_read` stores.

  Sync words are replaced and data is decoded at fixed offsets of the reader's own buffer.
  The data goes to the caller's buffer at an offset that was read off the disk: the check of
  the sector number only prints, so a header with a number from `nsec` on sends the copy
  behind the buffer (`amiga_read_inside_iff`).
-/
import FlashFloppyTestbed.Disk.AmigaDamage

set_option autoImplicit false

namespace FlashFloppyTestbed

open FlashFloppyTestbed.Foundation FlashFloppyTestbed.Floppy

/-- The reader, with the addresses that it has stored to in its own buffer and in the
caller's. -/
structure AmigaStores where
  read : AmigaRead
  own : List Nat
  copied : List Nat

/-- One iteration of the loop over the sectors: 128 longs are decoded in place, and 512 bytes
copied out. -/
def AmigaStores.sector (track nsec : Nat) (s : AmigaStores) (i : Nat) : AmigaStores :=
  let info := getLong s.read.mem (s.read.p + 4 * 1)
  let sec : Byte := (info >>> 8).setWidth 8
  let p := s.read.p + 4 * 15
  { read := s.read.sector track nsec i
    own := s.own ++ (List.range (512 / 4)).flatMap fun j => List.range' (p + 4 * j) 4
    copied := s.copied ++ List.range' (sec.toNat * 512) 512 }

/-- What `amiga_track_read` does with the track in its buffer at `p`, store by store, up to
its `k`-th sector. -/
def amigaStoresAfter (m : Mem) (p : Nat) (out : Mem) (track nsec : Nat) (warned : Bool)
    (k : Nat) : AmigaStores :=
  let s := amigaFixSync m p nsec
  let reported := mfmCheck s.1 p (544 * nsec - 2)
  (List.range k).foldl (AmigaStores.sector track nsec)
    { read := ⟨s.1, p, out, warned || s.2 || decide (reported ≠ [])⟩
      own := (List.range nsec).flatMap fun i => List.range' (p + 4 * (i * 272)) 4
      copied := [] }

/-- What it does with the whole track. -/
def amigaTrackStores (m : Mem) (p : Nat) (out : Mem) (track nsec : Nat) (warned : Bool) :
    AmigaStores :=
  amigaStoresAfter m p out track nsec warned nsec

/-- `amiga_track_read`, store by store: the search, the read of the track, and what is done
with it. -/
def amigaTrackReadStores (d : Disk) (resume : Nat → Nat) (fuel : Nat) (m : Mem) (p : Nat)
    (buf : Mem) (track nsec t : Nat) : Option AmigaStores :=
  (amigaSearch d resume p t fuel t m false).bind fun f =>
    (d.floppyRead f.mem p (544 * nsec - 2) (resume f.endPos)).map fun rd =>
      amigaTrackStores rd.1 p buf track nsec f.warned

/-- The sector number in the header of the `i`-th sector of a track. -/
def sectorNumber (m : Mem) (p i : Nat) : Byte :=
  (getLong m (p + 4 * (272 * i) + 4 * 1) >>> 8).setWidth 8

/-! ## The record is faithful -/

theorem foldl_amigaStores_read (track nsec : Nat) (l : List Nat) : ∀ s : AmigaStores,
    (l.foldl (AmigaStores.sector track nsec) s).read =
      l.foldl (AmigaRead.sector track nsec) s.read := by
  induction l with
  | nil => exact fun _ => rfl
  | cons i l ih => exact fun s => ih (s.sector track nsec i)

/-- Without its record it is the reader. -/
theorem amigaTrackStores_read (m : Mem) (p : Nat) (out : Mem) (track nsec : Nat) (warned : Bool) :
    (amigaTrackStores m p out track nsec warned).read =
      amigaTrackCheck m p out track nsec warned :=
  foldl_amigaStores_read track nsec _ _

/-- A run of the reader, and its record. -/
theorem amigaTrackReadStores_read (d : Disk) (resume : Nat → Nat) (fuel : Nat) (m : Mem) (p : Nat)
    (buf : Mem) (track nsec t : Nat) :
    (amigaTrackRead d resume fuel m p buf track nsec t).map (fun r => (r.buf, r.warned)) =
      (amigaTrackReadStores d resume fuel m p buf track nsec t).map
        fun s => (s.read.buf, s.read.warned) := by
  rw [amigaTrackRead_eq, amigaTrackReadStores, Option.map_bind, Option.map_bind]
  refine Option.bind_congr fun f _ => ?_
  rw [Function.comp_apply, Function.comp_apply, Option.map_map, Option.map_map]
  refine Option.map_congr fun rd _ => ?_
  rw [Function.comp_apply, Function.comp_apply, amigaTrackStores_read]

theorem mem_flatMap_longs {n a : Nat} {f : Nat → Nat} :
    (a ∈ (List.range n).flatMap fun i => List.range' (f i) 4) ↔
      ∃ i, i < n ∧ f i ≤ a ∧ a < f i + 4 := by
  simp only [List.mem_flatMap, List.mem_range, List.mem_range'_1]

theorem amigaFixSync_of_not_mem (m : Mem) (p : Nat) {n a : Nat}
    (h : a ∉ (List.range n).flatMap fun i => List.range' (p + 4 * (i * 272)) 4) :
    (amigaFixSync m p n).1 a = m a := by
  rw [mem_flatMap_longs] at h
  refine amigaFixSync_frame m p n fun i hi => ?_
  by_contra hin
  exact h ⟨i, hi, by omega⟩

/-- One iteration stores to nothing else. -/
theorem AmigaStores.sector_frame (track nsec : Nat) (s : AmigaStores) (i : Nat) :
    (∀ a, a ∉ (s.sector track nsec i).own → a ∉ s.own ∧
      (s.sector track nsec i).read.mem a = s.read.mem a) ∧
    ∀ a, a ∉ (s.sector track nsec i).copied → a ∉ s.copied ∧
      (s.sector track nsec i).read.buf a = s.read.buf a := by
  refine ⟨fun a ha => ?_, fun a ha => ?_⟩
  · obtain ⟨hold, hnew⟩ := not_or.mp (mt List.mem_append.mpr ha)
    refine ⟨hold, ?_⟩
    have hout : a < s.read.p + 4 * 15 ∨ s.read.p + 4 * 15 + 4 * 128 ≤ a := by
      by_contra hin
      refine hnew (mem_flatMap_longs.mpr ⟨(a - (s.read.p + 4 * 15)) / 4, ?_, ?_, ?_⟩) <;> omega
    exact (amigaDecode_spec s.read.mem (s.read.p + 4 * 15) (s.read.p + 4 * 15 + 512) 128
      (Nat.le_refl _)).2 a hout
  · obtain ⟨hold, hnew⟩ := not_or.mp (mt List.mem_append.mpr ha)
    refine ⟨hold, ?_⟩
    rw [List.mem_range'_1, not_and, Nat.not_lt] at hnew
    rcases Nat.lt_or_ge a (_ * 512) with hlt | hge
    · exact Mem.stBytes_of_lt _ _ hlt
    · exact Mem.stBytes_of_le _ _ (by rw [Mem.length_bytes]; exact hnew hge)

/-- **Nothing else has been stored to.** -/
theorem amigaTrackStores_frame (m : Mem) (p : Nat) (out : Mem) (track nsec : Nat)
    (warned : Bool) :
    let s := amigaTrackStores m p out track nsec warned
    (∀ a, a ∉ s.own → s.read.mem a = m a) ∧ ∀ a, a ∉ s.copied → s.read.buf a = out a := by
  have hloop : ∀ (l : List Nat) (s : AmigaStores),
      (∀ a, a ∉ s.own → s.read.mem a = m a) ∧ (∀ a, a ∉ s.copied → s.read.buf a = out a) →
      let s' := l.foldl (AmigaStores.sector track nsec) s
      (∀ a, a ∉ s'.own → s'.read.mem a = m a) ∧ ∀ a, a ∉ s'.copied → s'.read.buf a = out a := by
    intro l
    induction l with
    | nil => exact fun _ h => h
    | cons i l ih =>
      intro s h
      obtain ⟨hown, hcopied⟩ := s.sector_frame track nsec i
      exact ih (s.sector track nsec i)
        ⟨fun a ha => (hown a ha).2.trans (h.1 a (hown a ha).1),
          fun a ha => (hcopied a ha).2.trans (h.2 a (hcopied a ha).1)⟩
  exact hloop _ _ ⟨fun a ha => amigaFixSync_of_not_mem m p ha, fun _ _ => rfl⟩

/-! ## Where it stores -/

section Bounds

variable (m : Mem) (p : Nat) (out : Mem) (track nsec : Nat) (warned : Bool)

theorem amigaStoresAfter_succ (k : Nat) :
    amigaStoresAfter m p out track nsec warned (k + 1) =
      (amigaStoresAfter m p out track nsec warned k).sector track nsec k := by
  rw [amigaStoresAfter, List.range_succ, List.foldl_append]
  rfl

/-- The headers ahead are still as they were read. -/
theorem amigaStoresAfter_header (k : Nat) :
    (amigaStoresAfter m p out track nsec warned k).read.p = p + 4 * (272 * k) ∧
      (((getLong (amigaStoresAfter m p out track nsec warned k).read.mem
        ((amigaStoresAfter m p out track nsec warned k).read.p + 4 * 1)) >>> 8).setWidth 8 : Byte) =
          sectorNumber m p k := by
  obtain ⟨r, hr, hp, hmem⟩ := foldl_sector_frame ⟨(amigaFixSync m p nsec).1, p, out,
    warned || (amigaFixSync m p nsec).2 ||
      decide (mfmCheck (amigaFixSync m p nsec).1 p (544 * nsec - 2) ≠ [])⟩ track nsec k
  have hread : (amigaStoresAfter m p out track nsec warned k).read = r :=
    (foldl_amigaStores_read track nsec _ _).trans hr
  have hlong : ∀ j, 0 < j → j < 272 → r.mem.long (p + 4 * (272 * k + j)) =
      m.long (p + 4 * (272 * k + j)) := by
    intro j hpos hlt
    have hsame : r.mem.long (p + 4 * (272 * k + j)) =
        (amigaFixSync m p nsec).1.long (p + 4 * (272 * k + j)) :=
      Mem.long_congr fun a ha _ => hmem a (by show p + 4 * (272 * k) ≤ a; omega)
    rw [hsame, amigaFixSync_long, if_neg (by omega)]
  rw [hread]
  refine ⟨hp, ?_⟩
  rw [hp, sectorNumber, getLong_eq, getLong_eq, Nat.add_assoc p, ← Nat.mul_add, Nat.add_assoc p,
    show 4 * (272 * k + 1) + 4 = 4 * (272 * k + 2) by omega]
  rw [hlong 1 (by decide) (by decide), hlong 2 (by decide) (by decide)]

/-- **The reader's own buffer**: every store is in it. -/
theorem amigaTrackStores_own {a : Nat}
    (ha : a ∈ (amigaTrackStores m p out track nsec warned).own) :
    p ≤ a ∧ a < p + 2 * (544 * nsec - 2) := by
  have hloop : ∀ k, k ≤ nsec → ∀ a ∈ (amigaStoresAfter m p out track nsec warned k).own,
      p ≤ a ∧ a < p + 2 * (544 * nsec - 2) := by
    intro k
    induction k with
    | zero =>
      intro _ a ha
      obtain ⟨i, hi, hlo, hhi⟩ := mem_flatMap_longs.mp ha
      omega
    | succ k ih =>
      intro hk a ha
      rw [amigaStoresAfter_succ] at ha
      rcases List.mem_append.mp ha with ha | ha
      · exact ih (by omega) a ha
      · obtain ⟨j, hj, hlo, hhi⟩ := mem_flatMap_longs.mp ha
        rw [(amigaStoresAfter_header m p out track nsec warned k).1] at hlo hhi
        omega
  exact hloop nsec (Nat.le_refl nsec) a ha

/-- **The caller's buffer**: each sector is copied to where its header says. -/
theorem mem_amigaTrackStores_copied {a : Nat} :
    a ∈ (amigaTrackStores m p out track nsec warned).copied ↔
      ∃ i, i < nsec ∧ a / 512 = (sectorNumber m p i).toNat := by
  have hloop : ∀ k, a ∈ (amigaStoresAfter m p out track nsec warned k).copied ↔
      ∃ i, i < k ∧ a / 512 = (sectorNumber m p i).toNat := by
    intro k
    induction k with
    | zero => exact ⟨fun h => absurd h List.not_mem_nil, fun ⟨i, hi, _⟩ => absurd hi (by omega)⟩
    | succ k ih =>
      have hheader := (amigaStoresAfter_header m p out track nsec warned k).2
      rw [amigaStoresAfter_succ, AmigaStores.sector]
      simp only [hheader]
      rw [List.mem_append, ih, List.mem_range'_1]
      constructor
      · rintro (⟨i, hi, heq⟩ | hin)
        · exact ⟨i, Nat.lt_succ_of_lt hi, heq⟩
        · exact ⟨k, Nat.lt_succ_self k, by omega⟩
      · rintro ⟨i, hi, heq⟩
        rcases Nat.lt_or_ge i k with hlt | hge
        · exact .inl ⟨i, hlt, heq⟩
        · obtain rfl : i = k := by omega
          exact .inr (by omega)
  exact hloop nsec

end Bounds

/-- **`amiga_track_read` stays inside its buffers** if and only if the sector numbers that it
reads off the disk are below `nsec`, whatever else the track holds. -/
theorem amiga_read_inside_iff (m : Mem) (p : Nat) (out : Mem) (track nsec : Nat) (warned : Bool) :
    ((∀ a ∈ (amigaTrackStores m p out track nsec warned).own,
        p ≤ a ∧ a < p + 2 * (544 * nsec - 2)) ∧
      ∀ a ∈ (amigaTrackStores m p out track nsec warned).copied, a < nsec * 512) ↔
      ∀ i, i < nsec → (sectorNumber m p i).toNat < nsec := by
  constructor
  · rintro ⟨-, hcopied⟩ i hi
    have hin := hcopied ((sectorNumber m p i).toNat * 512)
      ((mem_amigaTrackStores_copied m p out track nsec warned).mpr
        ⟨i, hi, Nat.mul_div_cancel _ (by decide)⟩)
    omega
  · intro hnumbers
    refine ⟨fun a ha => amigaTrackStores_own m p out track nsec warned ha, fun a ha => ?_⟩
    obtain ⟨i, hi, heq⟩ := (mem_amigaTrackStores_copied m p out track nsec warned).mp ha
    have hlt := hnumbers i hi
    omega

/-! ## A stray header -/

/-- A sync mark, a header with the sector number 255 that says that it is the last one, and
the gap behind it. -/
def strayHeader : BitVec 128 := 0x44894489552a552a552555292aaaaaaa

/-- A revolution of 100000 bitcells with nothing but that header. -/
def strayDisk : Disk :=
  ⟨fun r => if r < 128 then strayHeader.getMsbD r else decide (r % 2 = 0), 100000⟩

theorem strayDisk_gap {r : Nat} (hlo : 98 ≤ r) (hhi : r < 100000) :
    strayDisk.cells (r % 100000) = decide (r % 2 = 0) := by
  have hheader : ∀ r < 128, 98 ≤ r → strayHeader.getMsbD r = decide (r % 2 = 0) := by
    decide
  rw [Nat.mod_eq_of_lt hhi]
  show (if r < 128 then _ else _) = _
  split
  · next hlt => exact hheader r hlt hlo
  · rfl

theorem strayDisk_syncAt_zero : strayDisk.SyncAt 0 := by
  decide +kernel

/-- There is no other mark: two of its clear bitcells are next to each other. -/
theorem strayDisk_not_syncAt {o : Nat} (hlo : 96 ≤ o) (hhi : o < 100000) :
    ¬ strayDisk.SyncAt o := by
  rw [Disk.syncAt_iff_forall]
  intro h
  have hcell : ∀ i, i < 32 → strayDisk.cells ((o + i) % 100000) = syncMark.getMsbD i := h
  rcases Nat.lt_or_ge (o + 3) 100000 with hin | hout
  · have h₂ := hcell 2 (by decide)
    have h₃ := hcell 3 (by decide)
    rw [strayDisk_gap (by omega) (by omega)] at h₂ h₃
    have heven : ¬ (o + 2) % 2 = 0 := decide_eq_false_iff_not.mp h₂
    have heven' : ¬ (o + 3) % 2 = 0 := decide_eq_false_iff_not.mp h₃
    omega
  · -- across the index
    obtain rfl | rfl | rfl : o = 99997 ∨ o = 99998 ∨ o = 99999 := by omega
    · exact absurd (hcell 4 (by decide)) (by decide)
    · exact absurd (hcell 0 (by decide)) (by decide)
    · exact absurd (hcell 1 (by decide)) (by decide)

/-- Reads from the header on, at once and a turn later. -/
theorem strayDisk_floppyRead (m : Mem) (n : Nat) {t : Nat} (ht : t = 0 ∨ t = 96) :
    ∃ o, strayDisk.floppyRead m 0 n t = some (m.stBits 0 (strayDisk.stream 0 (16 * n)), o) ∧
      o ≤ 100000 ∧ (t = 0 → o = 0) := by
  rcases ht with rfl | rfl
  · refine ⟨0, ?_, by decide, fun _ => rfl⟩
    rw [Disk.floppyRead, Disk.findSync_self strayDisk_syncAt_zero (by decide)]
    rfl
  · refine ⟨100000, ?_, by decide, fun h => absurd h (by decide)⟩
    have hmark : strayDisk.SyncAt 100000 := (strayDisk.syncAt_mod 100000).mp strayDisk_syncAt_zero
    have hturn : strayDisk.stream 100000 (16 * n) = strayDisk.stream 0 (16 * n) :=
      (window_mod strayDisk.cells 100000 100000 (16 * n)).symm
    rw [Disk.floppyRead, Disk.findSync_eq hmark (by decide)
      (fun o' hlo hhi => strayDisk_not_syncAt hlo hhi) (by decide), Option.map_some, hturn]

/-- A byte of a buffer that a stream was stored into. -/
theorem stBits_stream (m : Mem) (d : Disk) {o n i : Nat} (h : 8 * i + 8 ≤ n) :
    m.stBits 0 (d.stream o n) i = pushBits 0 (d.stream (o + 8 * i) 8) := by
  rw [Mem.stBits, if_pos (by rw [Disk.length_stream]; omega), Nat.sub_zero,
    Disk.drop_stream d o (by omega), Disk.take_stream d _ (by omega)]

/-- The header in the buffer. -/
theorem strayDisk_getLong (m : Mem) {n : Nat} (hn : 6 ≤ n) :
    getLong (m.stBits 0 (strayDisk.stream 0 (16 * n))) 4 = 0xff05ff01 := by
  obtain ⟨m₀, hm₀⟩ : ∃ m₀ : Mem, m₀ = fun _ => 0 := ⟨_, rfl⟩
  have hsame : ∀ a, 4 ≤ a → a < 12 → m.stBits 0 (strayDisk.stream 0 (16 * n)) a =
      m₀.stBits 0 (strayDisk.stream 0 96) a := by
    intro a _ ha
    rw [stBits_stream m strayDisk (by omega), stBits_stream m₀ strayDisk (by omega)]
  rw [getLong_eq, Mem.long_congr fun a hlo hhi => hsame a hlo (by omega),
    Mem.long_congr fun a hlo hhi => hsame a (by omega) hhi, hm₀]
  decide +kernel

/-- The search ends with the header, and the read of the track begins with it. -/
theorem strayDisk_run (m buf : Mem) :
    ∃ r s, amigaTrackRead strayDisk id 1 m 0 buf 5 11 0 = some r ∧
      amigaTrackReadStores strayDisk id 1 m 0 buf 5 11 0 = some s ∧ 255 * 512 ∈ s.copied := by
  obtain ⟨o, hread, -, ho⟩ := strayDisk_floppyRead m 6 (.inl rfl)
  obtain rfl := ho rfl
  obtain ⟨m₁, hm₁⟩ : ∃ m₁, m₁ = m.stBits 0 (strayDisk.stream 0 (16 * 6)) := ⟨_, rfl⟩
  rw [← hm₁] at hread
  have hinfo : getLong m₁ (0 + 4) = 0xff05ff01 := hm₁ ▸ strayDisk_getLong m (Nat.le_refl 6)
  have hsearch : amigaSearch strayDisk id 0 0 (0 + 1) 0 m false = some ⟨m₁, 96, false⟩ := by
    rw [amigaSearch, hread, Option.bind_some, hinfo]
    rfl
  obtain ⟨o, htrack, -⟩ := strayDisk_floppyRead m₁ (544 * 11 - 2) (.inr rfl)
  obtain ⟨m₂, hm₂⟩ : ∃ m₂, m₂ = m₁.stBits 0 (strayDisk.stream 0 (16 * (544 * 11 - 2))) := ⟨_, rfl⟩
  rw [← hm₂] at htrack
  have hnumber : sectorNumber m₂ 0 0 = 255 := by
    rw [sectorNumber, hm₂, show 0 + 4 * (272 * 0) + 4 * 1 = 4 from rfl,
      strayDisk_getLong m₁ (by decide)]
    decide
  have hrun : ∃ r, amigaTrackRead strayDisk id 1 m 0 buf 5 11 0 = some r := by
    rw [amigaTrackRead_eq, hsearch, Option.bind_some]
    exact ⟨_, congrArg (Option.map _) htrack⟩
  obtain ⟨r, hr⟩ := hrun
  refine ⟨r, amigaTrackStores m₂ 0 buf 5 11 false, hr, ?_, ?_⟩
  · rw [amigaTrackReadStores, hsearch, Option.bind_some]
    exact congrArg (Option.map _) htrack
  · exact (mem_amigaTrackStores_copied m₂ 0 buf 5 11 false).mpr
      ⟨0, by decide, by rw [hnumber]; decide⟩

/-- **A header from outside the track**: the search ends with it, `WARN_ON` prints, and the
data behind it is copied to 125 kilobytes behind the beginning of the caller's buffer. -/
theorem amiga_read_outside :
    ∃ r s, amigaTrackRead strayDisk id 1 (fun _ => 0) 0 (fun _ => 0) 5 11 0 = some r ∧
      amigaTrackReadStores strayDisk id 1 (fun _ => 0) 0 (fun _ => 0) 5 11 0 = some s ∧
      r.buf = s.read.buf ∧ ¬ ∀ a ∈ s.copied, a < 11 * 512 := by
  obtain ⟨r, s, hr, hs, hmem⟩ := strayDisk_run (fun _ => 0) fun _ => 0
  refine ⟨r, s, hr, hs, ?_, fun hin => ?_⟩
  · have hrecord := amigaTrackReadStores_read strayDisk id 1 (fun _ => 0) 0 (fun _ => 0) 5 11 0
    rw [hr, hs] at hrecord
    exact congrArg Prod.fst (Option.some.inj hrecord)
  · have hlt := hin _ hmem
    omega

end FlashFloppyTestbed
