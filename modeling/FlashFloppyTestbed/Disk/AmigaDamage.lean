/-
  Disk/AmigaDamage.lean --- no single wrong bitcell gets past `amiga_track_read`.

  Each part of the check sees what the others do not.  The sync longs are compared as
  they are.  `mfm_check` ties each clock bit to the data bits on both sides of it
  (`cell_clock`), so that a wrong clock bit is reported, and a wrong data bit in the gap
  between two sectors, where all data bits are clear.  A wrong data bit anywhere else is
  on one side only of one of the two checksums of its sector (`Damaged.sector`).
-/
import FlashFloppyTestbed.Coder
import FlashFloppyTestbed.Disk.AmigaRoundTrip

set_option autoImplicit false

namespace FlashFloppyTestbed

open FlashFloppyTestbed.Foundation FlashFloppyTestbed.Floppy

/-- What `amiga_track_read` does with the track in its buffer at `p`; `warned` is whether
a `WARN_ON` has fired before. -/
def amigaTrackCheck (m : Mem) (p : Nat) (out : Mem) (track nsec : Nat) (warned : Bool) :
    AmigaRead :=
  let s := amigaFixSync m p nsec
  let reported := mfmCheck s.1 p (544 * nsec - 2)
  (List.range nsec).foldl (AmigaRead.sector track nsec)
    ⟨s.1, p, out, warned || s.2 || decide (reported ≠ [])⟩

theorem amigaTrackRead_eq (d : Disk) (resume : Nat → Nat) (fuel : Nat) (m : Mem) (p : Nat)
    (buf : Mem) (track nsec t : Nat) : amigaTrackRead d resume fuel m p buf track nsec t =
      (amigaSearch d resume p t fuel t m false).bind fun f =>
        (d.floppyRead f.mem p (544 * nsec - 2) (resume f.endPos)).map fun rd =>
          let r := amigaTrackCheck rd.1 p buf track nsec f.warned
          { buf := r.buf, warned := r.warned, lock := rd.2 } := rfl

/-! ## What the check demands -/

/-- The checksums of the sector at `q`. -/
structure SectorChecks (m : Mem) (q : Nat) : Prop where
  header : amigadosMfmChecksum m (q + 4 * 1) 10 = getLong m (q + 4 * 11)
  data : amigadosMfmChecksum m (q + 4 * 15) 256 = getLong m (q + 4 * 13)

theorem SectorChecks.congr {m m' : Mem} {q : Nat} (h : SectorChecks m q)
    (hmem : ∀ a, q ≤ a → m' a = m a) : SectorChecks m' q := by
  have hlong : ∀ a, q ≤ a → m'.long a = m.long a := fun a ha =>
    Mem.long_congr fun i hi _ => hmem i (by omega)
  have hsum : ∀ a n, q ≤ a → amigadosMfmChecksum m' a n = amigadosMfmChecksum m a n := by
    intro a n ha
    rw [amigadosMfmChecksum, amigadosMfmChecksum, amigadosChecksum_eq, amigadosChecksum_eq,
      Mem.longs_congr fun i hi _ => hmem i (by omega)]
  refine ⟨?_, ?_⟩
  · rw [hsum _ _ (by omega), getLong_eq, hlong _ (by omega), hlong _ (by omega), ← getLong_eq]
    exact h.header
  · rw [hsum _ _ (by omega), getLong_eq, hlong _ (by omega), hlong _ (by omega), ← getLong_eq]
    exact h.data

/-- An iteration that warns of nothing has found its checksums right. -/
theorem AmigaRead.sector_checks {s : AmigaRead} {track nsec i : Nat}
    (h : (s.sector track nsec i).warned = false) :
    s.warned = false ∧ SectorChecks s.mem s.p := by
  rw [AmigaRead.sector] at h
  simp only [Bool.or_eq_false_iff, decide_eq_false_iff_not, not_not] at h
  exact ⟨h.1.1.1.1.1.1, h.1.2, h.2⟩

/-- **A loop that warns of nothing** has found the checksums of all sectors right. -/
theorem foldl_sector_checks {m : Mem} {p : Nat} {out : Mem} {warned : Bool} {track nsec : Nat} :
    ∀ k, ((List.range k).foldl (AmigaRead.sector track nsec) ⟨m, p, out, warned⟩).warned = false →
      warned = false ∧ ∀ i, i < k → SectorChecks m (p + 4 * (272 * i)) := by
  intro k
  induction k with
  | zero => exact fun h => ⟨h, fun i hi => absurd hi (Nat.not_lt_zero i)⟩
  | succ k ih =>
    intro h
    obtain ⟨r, hr, hp, hmem⟩ := foldl_sector_frame ⟨m, p, out, warned⟩ track nsec k
    rw [List.range_succ, List.foldl_append, hr] at h
    rw [hr] at ih
    obtain ⟨hbefore, hsector⟩ := AmigaRead.sector_checks h
    obtain ⟨hfirst, hall⟩ := ih hbefore
    refine ⟨hfirst, fun i hi => ?_⟩
    rcases Nat.lt_or_ge i k with hlt | hge
    · exact hall i hlt
    · obtain rfl : i = k := by omega
      have hat := hsector.congr fun a ha => (hmem a (hp ▸ ha)).symm
      rwa [hp] at hat

/-- A loop that warns of nothing has found the sync longs. -/
theorem amigaFixSync_sync {m : Mem} {p : Nat} : ∀ {n : Nat}, (amigaFixSync m p n).2 = false →
    ∀ i, i < n → m.long (p + 4 * (i * 272)) = syncLong
  | 0, _, i, hi => absurd hi (Nat.not_lt_zero i)
  | n + 1, h, i, hi => by
    rw [amigaFixSync_succ, Bool.or_eq_false_iff, decide_eq_false_iff_not, not_not] at h
    rcases Nat.lt_or_ge i n with hlt | hge
    · exact amigaFixSync_sync h.1 i hlt
    · have hraw : (amigaFixSync m p n).1.long (p + 4 * (n * 272)) = syncLong := by
        rw [Mem.long, h.2, be32toh, htobe32, rev32_rev32]
        rfl
      rwa [amigaFixSync_long, if_neg (by omega), ← show i = n by omega] at hraw

/-! ## Bitcells of a buffer -/

/-- Bitcell `x` of the buffer at `p`. -/
def Mem.cell (m : Mem) (p x : Nat) : Bool := (m.long (p + 4 * (x / 32))).getMsbD (x % 32)

theorem Mem.getElem?_bits_cell (m : Mem) (p : Nat) {n x : Nat} (hx : x < 32 * n) :
    (m.bits p (4 * n))[x]? = some (m.cell p x) := by
  have hblock := getElem?_blocks length_bitsOf (l := m.longs p n) (k := x / 32) (i := x % 32)
    (by rw [Mem.length_longs]; omega) (Nat.mod_lt x (by decide))
  rw [Nat.div_add_mod, Mem.longs_flatMap_bitsOf, Mem.getElem_longs] at hblock
  rw [hblock, List.getElem?_eq_getElem (by rw [length_bitsOf]; omega), getElem_bitsOf, Mem.cell]

/-- The clock bits of the serial encoder. -/
theorem mfmSerial_clock : ∀ (l : List Bool) (y : Bool) (t : Nat) {a b c : Bool},
    (mfmSerial y l)[2 * t + 1]? = some a → (mfmSerial y l)[2 * t + 2]? = some c →
    (mfmSerial y l)[2 * t + 3]? = some b → c = !(a || b)
  | [], _, _, _, _, _, h, _, _ => by cases h
  | [_], _, 0, _, _, _, _, h, _ => by cases h
  | _ :: _ :: _, _, 0, _, _, _, ha, hc, hb => by
    cases ha
    cases hc
    cases hb
    rfl
  | b₀ :: l, _, t + 1, _, _, _, ha, hc, hb => mfmSerial_clock l b₀ t ha hc hb

/-- **What `mfm_check` reports nothing on** has its clock bits right, within the buffer. -/
theorem cell_clock {m : Mem} {p n t : Nat} (h : mfmCheck m p (2 * n) = [])
    (ht : 2 * t + 3 < 32 * n) :
    m.cell p (2 * t + 2) = !(m.cell p (2 * t + 1) || m.cell p (2 * t + 3)) := by
  have hwords := congrArg (List.flatMap bitsOf) (mfmCheck_words h)
  rw [Mem.words_flatMap_bitsOf, mfmWords_flatMap_bitsOf, ← Nat.mul_assoc] at hwords
  have hcell := fun x hx => m.getElem?_bits_cell p (n := n) (x := x) hx
  rw [hwords] at hcell
  exact mfmSerial_clock _ _ t (hcell _ (by omega)) (hcell _ (by omega)) (hcell _ ht)

/-! ## One wrong bitcell -/

/-- The `n` longs of `m'` from `p` on are those of `m`, with bitcell `r` inverted. -/
def Damaged (m m' : Mem) (p n r : Nat) : Prop :=
  ∀ x, x < 32 * n → m'.cell p x = (m.cell p x ^^ decide (x = r))

/-- The long with bitcell `b` set. -/
def cellLong (b : Nat) : BitVec 32 := BitVec.twoPow 32 (31 - b)

theorem cellLong_getMsbD : ∀ b i : Fin 32, (cellLong b).getMsbD i = decide (i = b) := by
  decide +kernel

theorem damaged_stBits (m : Mem) (p : Nat) {n : Nat} {l : List Bool} (hl : l.length = 32 * n)
    (r : Nat) : Damaged (m.stBits p l) (m.stBits p (l.modify r (!·))) p n r := by
  intro x hx
  have hbefore := Mem.getElem?_bits_cell (m.stBits p l) p hx
  have hafter := Mem.getElem?_bits_cell (m.stBits p (l.modify r (!·))) p hx
  rw [Mem.bits_stBits _ _ _ _ (by omega)] at hbefore
  rw [Mem.bits_stBits _ _ _ _ (by rw [List.length_modify]; omega), List.getElem?_modify,
    hbefore] at hafter
  refine (Option.some.inj hafter).symm.trans ?_
  by_cases hxr : x = r
  · exact (if_pos hxr.symm).trans (by rw [decide_eq_true hxr, Bool.xor_true])
  · exact (if_neg (Ne.symm hxr)).trans (by rw [decide_eq_false hxr, Bool.xor_false])

/-- Seen through the mask, or put together with another long, a data bit is not lost. -/
theorem cellLong_odd : ∀ k : Fin 16, cellLong (2 * k + 1) &&& dataBits ≠ 0#32 ∧
    mergeBits (cellLong (2 * k + 1)) 0#32 ≠ 0#32 ∧
    mergeBits 0#32 (cellLong (2 * k + 1)) ≠ 0#32 := by
  decide +kernel

namespace Damaged

variable {m m' : Mem} {p n r : Nat}

theorem long (h : Damaged m m' p n r) {k : Nat} (hk : k < n) : m'.long (p + 4 * k) =
    m.long (p + 4 * k) ^^^ if k = r / 32 then cellLong (r % 32) else 0#32 := by
  apply BitVec.eq_of_getMsbD_eq
  intro i hi
  have hcell := h (32 * k + i) (by omega)
  rw [Mem.cell, Mem.cell, show (32 * k + i) / 32 = k by omega,
    show (32 * k + i) % 32 = i by omega] at hcell
  rw [hcell, BitVec.getMsbD_xor]
  congr 1
  split
  · rename_i hkr
    rw [cellLong_getMsbD ⟨r % 32, by omega⟩ ⟨i, hi⟩, decide_eq_decide, Fin.mk.injEq]
    omega
  · rename_i hkr
    rw [BitVec.getMsbD_zero, decide_eq_false_iff_not]
    omega

/-- Replacing the sync longs does not hide a wrong bitcell anywhere else. -/
theorem fixSync (h : Damaged m m' p n r) {nsec : Nat} (hr : ∀ i, i < nsec → r / 32 ≠ i * 272) :
    Damaged (amigaFixSync m p nsec).1 (amigaFixSync m' p nsec).1 p n r := by
  intro x hx
  rw [Mem.cell, Mem.cell, amigaFixSync_long, amigaFixSync_long]
  split
  · rename_i hsync
    obtain ⟨i, hi, hxi⟩ := hsync
    have hne : x ≠ r := fun hxr => hr i hi (hxr ▸ hxi)
    rw [decide_eq_false hne, Bool.xor_false]
  · exact h x hx

/-- An exclusive or of longs shows a wrong bitcell among them. -/
theorem xorLongs (h : Damaged m m' p n r) (a : Nat) : ∀ c, a + c ≤ n →
    xorLongs (m'.longs (p + 4 * a) c) = xorLongs (m.longs (p + 4 * a) c) ^^^
      if a ≤ r / 32 ∧ r / 32 < a + c then cellLong (r % 32) else 0#32 := by
  intro c
  induction c with
  | zero =>
    intro _
    rw [if_neg (by omega), BitVec.xor_zero]
    rfl
  | succ c ih =>
    intro hle
    have hlast : ∀ m : Mem, FlashFloppyTestbed.xorLongs (m.longs (p + 4 * a) (c + 1)) =
        FlashFloppyTestbed.xorLongs (m.longs (p + 4 * a) c) ^^^ m.long (p + 4 * (a + c)) := by
      intro m
      rw [Mem.longs_succ_last, xorLongs_append, xorLongs_cons, Nat.mul_add, Nat.add_assoc]
      exact congrArg _ (BitVec.xor_zero)
    rw [hlast, hlast, ih (by omega), h.long (by omega)]
    by_cases hlast : r / 32 = a + c
    · rw [if_neg (by omega), if_pos hlast.symm, if_pos (by omega), BitVec.xor_zero,
        BitVec.xor_assoc]
    · have hiff : (a ≤ r / 32 ∧ r / 32 < a + c) ↔ a ≤ r / 32 ∧ r / 32 < a + (c + 1) := by
        omega
      rw [if_neg (Ne.symm hlast), BitVec.xor_zero, if_congr hiff rfl rfl, BitVec.xor_assoc,
        BitVec.xor_assoc]
      exact congrArg _ (BitVec.xor_comm _ _)

/-- A checksum shows a wrong data bit among its longs. -/
theorem checksum (h : Damaged m m' p n r) {a c : Nat} (hle : a + c ≤ n) :
    amigadosMfmChecksum m' (p + 4 * a) c = amigadosMfmChecksum m (p + 4 * a) c ^^^
      (if a ≤ r / 32 ∧ r / 32 < a + c then cellLong (r % 32) else 0#32) &&& dataBits := by
  rw [amigadosMfmChecksum, amigadosMfmChecksum, amigadosChecksum_eq, amigadosChecksum_eq,
    h.xorLongs a c hle]
  exact xor_and_dataBits _ _

theorem getLong (h : Damaged m m' p n r) {b : Nat} (hle : b + 2 ≤ n) :
    getLong m' (p + 4 * b) = getLong m (p + 4 * b) ^^^
      mergeBits (if b = r / 32 then cellLong (r % 32) else 0#32)
        (if b + 1 = r / 32 then cellLong (r % 32) else 0#32) := by
  rw [getLong_eq, getLong_eq, Nat.add_assoc, ← Nat.mul_add_one, h.long (by omega),
    h.long (by omega)]
  exact mergeBits_xor _ _ _ _

/-- **A wrong data bit on one side of a checksum** makes it wrong. -/
theorem checksum_ne (h : Damaged m m' p n r) (hodd : r % 2 = 1) {a c b : Nat} (ha : a + c ≤ n)
    (hb : b + 2 ≤ n) (hapart : b + 2 ≤ a ∨ a + c ≤ b)
    (hright : amigadosMfmChecksum m (p + 4 * a) c = FlashFloppyTestbed.getLong m (p + 4 * b))
    (hin : (a ≤ r / 32 ∧ r / 32 < a + c) ∨ r / 32 = b ∨ r / 32 = b + 1) :
    amigadosMfmChecksum m' (p + 4 * a) c ≠ FlashFloppyTestbed.getLong m' (p + 4 * b) := by
  intro hwrong
  rw [h.checksum ha, h.getLong hb, hright, BitVec.xor_right_inj] at hwrong
  obtain ⟨hdata, heven, hodd'⟩ := cellLong_odd ⟨r % 32 / 2, by omega⟩
  rw [show 2 * (r % 32 / 2) + 1 = r % 32 by omega] at hdata heven hodd'
  rcases hin with hlongs | hfirst | hsecond
  · rw [if_pos hlongs, if_neg (by omega), if_neg (by omega)] at hwrong
    exact hdata hwrong
  · rw [if_neg (by omega), if_pos hfirst.symm, if_neg (by omega)] at hwrong
    exact heven hwrong.symm
  · rw [if_neg (by omega), if_neg (by omega), if_pos hsecond.symm] at hwrong
    exact hodd' hwrong.symm

/-- **A wrong data bit of a sector** makes one of its two checksums wrong. -/
theorem sector (h : Damaged m m' p n r) (hodd : r % 2 = 1) {a j : Nat} (hn : a + 271 ≤ n)
    (hr : r / 32 = a + j) (hj : 1 ≤ j ∧ j ≤ 270) (hright : SectorChecks m (p + 4 * a)) :
    ¬ SectorChecks m' (p + 4 * a) := by
  intro hwrong
  obtain ⟨hheader, hdata⟩ := hright
  obtain ⟨hheader', hdata'⟩ := hwrong
  simp only [Nat.add_assoc, ← Nat.mul_add] at hheader hdata hheader' hdata'
  rcases Nat.lt_or_ge j 13 with hj | hj
  · exact h.checksum_ne hodd (by omega) (by omega) (.inr (by omega)) hheader (by omega) hheader'
  · exact h.checksum_ne hodd (by omega) (by omega) (.inl (by omega)) hdata (by omega) hdata'

/-- **A wrong clock bit is reported**, but in front of the first data bit. -/
theorem clock (h : Damaged m m' p n r) (hright : mfmCheck m p (2 * n) = [])
    (hwrong : mfmCheck m' p (2 * n) = []) (hr : r < 32 * n) (hpos : 0 < r) : r % 2 = 1 := by
  by_contra heven
  obtain ⟨t, rfl⟩ : ∃ t, r = 2 * t + 2 := ⟨(r - 2) / 2, by omega⟩
  have hcell := cell_clock hright (t := t) (by omega)
  have hcell' := cell_clock hwrong (t := t) (by omega)
  rw [h _ hr, h (2 * t + 1) (by omega), h (2 * t + 3) (by omega), hcell,
    decide_eq_true rfl, decide_eq_false (by omega), decide_eq_false (by omega)] at hcell'
  revert hcell'
  cases m.cell p (2 * t + 1) <;> cases m.cell p (2 * t + 3) <;> decide

/-- The cell between two data bits of which the first is wrong, or the second. -/
theorem between (h : Damaged m m' p n r) (hright : mfmCheck m p (2 * n) = [])
    (hwrong : mfmCheck m' p (2 * n) = []) {t : Nat} (ht : 2 * t + 3 < 32 * n)
    (hr : r = 2 * t + 1 ∨ r = 2 * t + 3) :
    m.cell p (2 * t + 1) = true ∨ m.cell p (2 * t + 3) = true := by
  have hcell := cell_clock hright ht
  have hcell' := cell_clock hwrong ht
  rw [h (2 * t + 1) (by omega), h (2 * t + 2) (by omega), h (2 * t + 3) ht, hcell,
    decide_eq_false (p := 2 * t + 2 = r) (by omega)] at hcell'
  rcases hr with rfl | rfl
  · rw [decide_eq_true rfl, decide_eq_false (by omega)] at hcell'
    revert hcell'
    cases m.cell p (2 * t + 1) <;> cases m.cell p (2 * t + 3) <;> decide
  · rw [decide_eq_true rfl, decide_eq_false (by omega)] at hcell'
    revert hcell'
    cases m.cell p (2 * t + 1) <;> cases m.cell p (2 * t + 3) <;> decide

end Damaged

/-! ## The track -/

section Track

variable {buf m m' : Mem} {track nsec n p k r : Nat} {pr : BitVec 32}

/-- The data bits of the long between two sectors are clear. -/
theorem cell_gap (hk : k + 1 = 272 * nsec)
    (h : m.longs p k = amigaCode pr (((trackLongs buf track nsec n).drop 33).take k)) {i c : Nat}
    (hi : i + 1 < nsec) (hc : c < 16) :
    (amigaFixSync m p nsec).1.cell p (32 * (272 * i + 271) + (2 * c + 1)) = false := by
  have hx : (((trackLongs buf track nsec n).drop 33).take k)[272 * i + 271]? =
      some (.data 0) := by
    rw [List.getElem?_take_of_lt (by omega), List.getElem?_drop,
      show 33 + (272 * i + 271) = 32 + (272 * (i + 1) + 0) by omega,
      getElem?_trackLongs hi (by omega)]
    rfl
  have hbits := congrArg (·.getMsbD (2 * c + 1)) (long_dataBits h hx)
  simp only [BitVec.getMsbD_and, getMsbD_dataBits_odd hc, Bool.and_true] at hbits
  rw [Mem.cell, show (32 * (272 * i + 271) + (2 * c + 1)) / 32 = 272 * i + 271 by omega,
    show (32 * (272 * i + 271) + (2 * c + 1)) % 32 = 2 * c + 1 by omega, amigaFixSync_long,
    if_neg (by omega)]
  exact hbits.trans BitVec.getMsbD_zero

/-- **A wrong bitcell anywhere in the track** makes `amiga_track_read` warn. -/
theorem amigaTrackCheck_damaged (hpos : 0 < nsec) (hk : k + 1 = 272 * nsec)
    (hlongs : m.longs p k = amigaCode pr (((trackLongs buf track nsec n).drop 33).take k))
    (h : Damaged m m' p k r) (hr : r < 32 * k) (out : Mem) (warned : Bool) :
    (amigaTrackCheck m' p out track nsec warned).warned = true := by
  obtain ⟨hsync, hright⟩ :=
    amigaFixSync_mfmCheck hlongs (length_trackWindow hk) (trackWindow_sync_iff hk) hpos
  by_contra hquiet
  rw [Bool.not_eq_true, amigaTrackCheck] at hquiet
  obtain ⟨hwarned, hsectors⟩ := foldl_sector_checks nsec hquiet
  rw [Bool.or_eq_false_iff, Bool.or_eq_false_iff, decide_eq_false_iff_not, not_not,
    show 544 * nsec - 2 = 2 * k by omega] at hwarned
  obtain ⟨⟨-, hsync'⟩, hwrong⟩ := hwarned
  by_cases hmark : ∃ i, i < nsec ∧ r / 32 = i * 272
  · -- a sync long is compared as it is
    obtain ⟨i, hi, hri⟩ := hmark
    have hcell := h r hr
    rw [Mem.cell, Mem.cell, hri, amigaFixSync_sync hsync i hi, amigaFixSync_sync hsync' i hi,
      decide_eq_true rfl, Bool.xor_true] at hcell
    exact absurd hcell (by simp)
  · have hfixed := h.fixSync fun i (hi : i < nsec) hri => hmark ⟨i, hi, hri⟩
    have hfirst : r / 32 ≠ 0 := fun hzero => hmark ⟨0, hpos, by omega⟩
    have hodd := hfixed.clock hright hwrong hr (by omega)
    obtain ⟨i, j, hj, hri⟩ : ∃ i j, j < 272 ∧ r / 32 = 272 * i + j :=
      ⟨r / 32 / 272, r / 32 % 272, by omega, by omega⟩
    have hi : i < nsec := by omega
    have hsome : j ≠ 0 := fun hzero => hmark ⟨i, hi, by omega⟩
    rcases Nat.lt_or_ge j 271 with hlt | hge
    · -- a data bit of a sector
      have hat := trackWindow_sectorAt hk hlongs hi
      exact hfixed.sector hodd (by omega) hri ⟨by omega, by omega⟩
        ⟨header_checksum hat, data_checksum hat⟩ (hsectors i hi)
    · -- a data bit between two sectors, which has a neighbour there
      obtain ⟨c, hc, hrc⟩ : ∃ c, c < 15 ∧ (r = 2 * (16 * (272 * i + 271) + c) + 1 ∨
          r = 2 * (16 * (272 * i + 271) + c) + 3) :=
        ⟨min (r % 32 / 2) 14, by omega, by omega⟩
      have hcells := hfixed.between hright hwrong (by omega) hrc
      rw [show 2 * (16 * (272 * i + 271) + c) + 1 = 32 * (272 * i + 271) + (2 * c + 1) by omega,
        show 2 * (16 * (272 * i + 271) + c) + 3 = 32 * (272 * i + 271) + (2 * (c + 1) + 1) by omega,
        cell_gap hk hlongs (by omega) (by omega),
        cell_gap hk hlongs (by omega) (by omega)] at hcells
      exact absurd hcells (by decide)

/-- The track as it is read from its first sync mark on. -/
theorem amigaDisk_window (hn : 0 < n) (hpos : 0 < nsec) (hk : k + 1 = 272 * nsec) {o : Nat}
    (ho : o % (amigaDisk buf track nsec n).size = 32 * 33) (m : Mem) (p : Nat) :
    ∃ pr, (m.stBits p ((amigaDisk buf track nsec n).stream o (16 * (2 * k)))).longs p k =
      amigaCode pr (((trackLongs buf track nsec n).drop 33).take k) := by
  have hsize := amigaDisk_size buf track nsec n
  have hsync := (amigaDisk_syncAt_iff hn o).mpr ⟨0, hpos, ho⟩
  have hfind := Disk.findSync_self hsync (by omega)
  obtain ⟨m', pr, hread, hlongs⟩ :=
    amigaDisk_floppyRead hn (s := 0) m p hfind ho (k := k) (by omega)
  rw [Disk.floppyRead, hfind] at hread
  cases hread
  exact ⟨pr, hlongs⟩

end Track

/-! ## A damaged revolution -/

namespace Disk

/-- The revolution with one bitcell inverted. -/
def invert (d : Disk) (x : Nat) : Disk := ⟨fun y => d.cells y ^^ decide (y = x), d.size⟩

theorem stream_invert_of_ne {d : Disk} {x o n : Nat} (h : ∀ i, i < n → (o + i) % d.size ≠ x) :
    (d.invert x).stream o n = d.stream o n :=
  window_congr fun i hi => by
    show (_ ^^ decide ((o + i) % d.size = x)) = _
    rw [decide_eq_false (h i hi), Bool.xor_false]

theorem stream_invert {d : Disk} {x o n r : Nat} (hr : r < n) (hn : n ≤ d.size)
    (hx : (o + r) % d.size = x) : (d.invert x).stream o n = (d.stream o n).modify r (!·) := by
  refine List.ext_getElem (by rw [List.length_modify, length_stream, length_stream]) ?_
  intro i hi _
  rw [length_stream] at hi
  rw [List.getElem_modify]
  simp only [stream, getElem_window]
  show (d.cells ((o + i) % d.size) ^^ decide ((o + i) % d.size = x)) = _
  by_cases hir : r = i
  · rw [if_pos hir, decide_eq_true (hir ▸ hx), Bool.xor_true]
  · have hne : (o + i) % d.size ≠ x := by
      rw [← hx]
      rcases Nat.lt_or_gt_of_ne hir with hlt | hgt
      · exact (slot_ne hlt (by omega)).symm
      · exact slot_ne hgt (by omega)
    rw [if_neg hir, decide_eq_false hne, Bool.xor_false]

end Disk

section Track

variable {buf : Mem} {track nsec n r : Nat}

/-- A read of a revolution that is damaged between the first sync mark and the header of
the last sector locks to sector 0. -/
theorem amigaTrackRead_invert (hn : 0 < n) (htrack : track ≤ 255) (hnsec : nsec ≤ 255)
    (hlo : 32 ≤ r) (hhi : r < 32 * (272 * (nsec - 1))) {d : Disk} {t o : Nat}
    (hd : d = amigaDisk buf track nsec n) (ht : t = 32 * (33 + 272 * (nsec - 1)))
    (ho : o = 32 * 33 + d.size) (m : Mem) (p : Nat) (out : Mem) :
    ∃ res, amigaTrackRead (d.invert (32 * 33 + r)) (fun _ => o) 1 m p out track nsec t =
      some res ∧ res.lock = o := by
  have hsize := amigaDisk_size buf track nsec n
  have hsync := @amigaDisk_syncAt_iff buf track nsec n hn
  have hheader := @amigaDisk_info buf track nsec n hn t t (nsec - 1) m p (by omega)
  rw [← hd] at hsize hsync hheader
  have hpos : 0 < d.size := by omega
  -- at `t`, the header of the last sector is found as it was written
  have htmod : t % d.size = 32 * (33 + 272 * (nsec - 1)) := by
    rw [Nat.mod_eq_of_lt (by omega), ht]
  have hkept : ∀ k, k ≤ 96 → (d.invert (32 * 33 + r)).stream t k = d.stream t k := fun k hk =>
    Disk.stream_invert_of_ne fun i hi => by
      rw [Nat.mod_eq_of_lt (by omega)]
      omega
  have hlast : d.SyncAt t := (hsync t).mpr ⟨nsec - 1, by omega, htmod⟩
  have hlast' : (d.invert (32 * 33 + r)).SyncAt t := (hkept 32 (by decide)).trans hlast
  obtain ⟨m', hread, hinfo⟩ := hheader (Disk.findSync_self hlast hpos) htmod
  have hread' : (d.invert (32 * 33 + r)).floppyRead m p 6 t = some (m', t) := by
    rw [Disk.floppyRead, Disk.findSync_self hlast hpos] at hread
    rw [Disk.floppyRead, Disk.findSync_self hlast' hpos, ← hread]
    exact congrArg (fun l => some (m.stBits p l, t)) (hkept 96 (Nat.le_refl 96))
  have hsearch : amigaSearch (d.invert (32 * 33 + r)) (fun _ => o) p t 1 t m false =
      some ⟨m', t + 96, decide (2 ≤ (d.invert (32 * 33 + r)).indexCount t t)⟩ := by
    have htogo := (amigaInfo_fields htrack (show nsec - 1 < nsec by omega) hnsec).2.2.2
    rw [amigaSearch, hread']
    refine if_neg (not_not_intro (BitVec.eq_of_toNat_eq ?_))
    rw [hinfo, htogo]
    show nsec - (nsec - 1) = 1
    omega
  -- at `o`, the sync mark of the first sector
  have hfirst : (d.invert (32 * 33 + r)).SyncAt o := by
    refine (Disk.stream_invert_of_ne fun i hi => ?_).trans
      ((hsync o).mpr ⟨0, by omega, by rw [ho, Nat.add_mod_right, Nat.mod_eq_of_lt (by omega)]⟩)
    rw [ho, Nat.add_right_comm, Nat.add_mod_right, Nat.mod_eq_of_lt (by omega)]
    omega
  have htrack : (d.invert (32 * 33 + r)).floppyRead m' p (544 * nsec - 2) o =
      some (m'.stBits p ((d.invert (32 * 33 + r)).stream o (16 * (544 * nsec - 2))), o) := by
    rw [Disk.floppyRead, Disk.findSync_self hfirst hpos]
    rfl
  rw [amigaTrackRead_eq, hsearch, Option.bind_some, htrack]
  exact ⟨_, rfl, rfl⟩

end Track

/-- **No wrong bitcell of an Amiga track is accepted.**  Take what `amiga_track_write`
hands to the write path, repeated circularly, and the bitcells that `amiga_track_read`
checks behind its lock on sector 0.  With any one of them inverted, the checks warn; and
so does every call of `amiga_track_read` that locks to bitcells like these. -/
theorem amiga_track_damage (m : Mem) (p : Nat) (buf : Mem) (track : Nat) {nsec : Nat}
    (hnsec : nsec = 11 ∨ nsec = 22) :
    ∃ w, amigaTrackWrite m p buf track nsec = some w ∧ ∀ d, d = Disk.ofBits (w.2.bits w.1) →
      ∀ o, o % d.size = 32 * (32 + 1) → ∀ r, r < 16 * (544 * nsec - 2) →
      ∀ l, l = (d.stream o (16 * (544 * nsec - 2))).modify r (!·) →
        (∀ (m' : Mem) (p' : Nat) (out : Mem),
          (amigaTrackCheck (m'.stBits p' l) p' out track nsec false).warned = true) ∧
        ∀ d' resume fuel m' p' out t res,
          amigaTrackRead d' resume fuel m' p' out track nsec t = some res →
          d'.stream res.lock (16 * (544 * nsec - 2)) = l → res.warned = true := by
  obtain ⟨w, n, hwrite, hn, hbits⟩ := amigaTrackWrite_spec m p buf track hnsec
  have hpos : 0 < nsec := by omega
  obtain ⟨k, hk⟩ : ∃ k, k + 1 = 272 * nsec := ⟨272 * nsec - 1, by omega⟩
  have hwords : 544 * nsec - 2 = 2 * k := by omega
  refine ⟨w, hwrite, fun d hd o ho r hr l hl => ?_⟩
  rw [hbits] at hd
  subst hd
  rw [hwords] at hr hl
  have hcheck : ∀ (m' : Mem) (p' : Nat) (out : Mem) (warned : Bool),
      (amigaTrackCheck (m'.stBits p' l) p' out track nsec warned).warned = true := by
    intro m' p' out warned
    obtain ⟨pr, hlongs⟩ := amigaDisk_window hn hpos hk ho m' p'
    rw [hl]
    refine amigaTrackCheck_damaged hpos hk hlongs (damaged_stBits m' p' ?_ r) (by omega) out warned
    rw [Disk.length_stream]
    omega
  refine ⟨fun m' p' out => hcheck m' p' out false, ?_⟩
  intro d' resume fuel m' p' out t res hres hlock
  rw [amigaTrackRead_eq] at hres
  obtain ⟨f, -, hread⟩ := Option.bind_eq_some_iff.mp hres
  obtain ⟨rd, hrd, rfl⟩ := Option.map_eq_some_iff.mp hread
  obtain ⟨o', -, rfl⟩ := Option.map_eq_some_iff.mp hrd
  have hwarned := hcheck f.mem p' out f.warned
  rw [← hlock] at hwarned
  exact hwarned

/-- A double-density track of which one bitcell has been inverted on the disk. -/
theorem amiga_track_damage_dd :
    ∃ w d o res, amigaTrackWrite (fun _ => 0) 0 (fun a => BitVec.ofNat 8 a) 5 11 = some w ∧
      d = (Disk.ofBits (w.2.bits w.1)).invert (32 * 33 + 100) ∧
      amigaTrackRead d (fun _ => o) 1 (fun _ => 0) 0 (fun _ => 0) 5 11 88096 = some res ∧
      res.warned = true := by
  obtain ⟨w, hwrite, h⟩ := amiga_track_damage (fun _ => 0) 0 (fun a => BitVec.ofNat 8 a) 5
    (show 11 = 11 ∨ 11 = 22 from .inl rfl)
  obtain ⟨w', n, hwrite', hn, hbits⟩ := amigaTrackWrite_spec (fun _ => 0) 0
    (fun a => BitVec.ofNat 8 a) 5 (show 11 = 11 ∨ 11 = 22 from .inl rfl)
  obtain rfl : w' = w := Option.some.inj (hwrite'.symm.trans hwrite)
  obtain ⟨d, hd⟩ : ∃ d, d = Disk.ofBits (w'.2.bits w'.1) := ⟨_, rfl⟩
  have hamiga : d = amigaDisk (fun a => BitVec.ofNat 8 a) 5 11 n := by
    rw [hd, hbits]
    rfl
  have hsize := amigaDisk_size (fun a => BitVec.ofNat 8 a) 5 11 n
  rw [← hamiga] at hsize
  obtain ⟨res, hread, hlock⟩ := amigaTrackRead_invert hn (r := 100) (by decide) (by decide)
    (by decide) (by decide) hamiga (t := 88096) rfl rfl (fun _ => 0) 0 (fun _ => 0)
  refine ⟨w', _, _, res, hwrite, by rw [hd], hread, ?_⟩
  refine (h d hd (32 * 33 + d.size) (by rw [Nat.add_mod_right, Nat.mod_eq_of_lt (by omega)]) 100
    (by decide) _ rfl).2 _ _ _ _ _ _ _ res hread ?_
  rw [hlock]
  refine Disk.stream_invert (by decide) (by omega) ?_
  rw [Nat.add_right_comm, Nat.add_mod_right, Nat.mod_eq_of_lt (by omega)]

end FlashFloppyTestbed
