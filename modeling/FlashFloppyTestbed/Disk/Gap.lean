/-
  Disk/Gap.lean --- `ibm_mfm_scan` recovers the gap that `ibm_mfm_write_track` laid out.

  The scanner divides the time between its first two headers by the time of a byte, rounded
  to the nearest, and subtracts what a sector is made of.  The layout says how far apart the
  headers are (`sectorBytes`), so that any timing error of less than half a byte is rounded
  away (`scanGap3_eq`).
-/
import FlashFloppyTestbed.Disk.Fill
import FlashFloppyTestbed.Disk.Scan

set_option autoImplicit false

namespace FlashFloppyTestbed

open FlashFloppyTestbed.Foundation FlashFloppyTestbed.Floppy

/-- `time_sysclk(x)`: the SysTick timer counts every eighth tick of SYSCLK. -/
def timeSysclk (x : Nat) : Nat := x / 8

/-- The time, on the SysTick timer, from the first to the third of some marks: they are
given in bytes, and each byte is 16 bitcells. -/
def idealTicks (ticksPerCell : Nat) (syncOff : List Nat) : Nat :=
  timeSysclk ((syncOff.getD 2 0 - syncOff.getD 0 0) * 16 * ticksPerCell)

/-- **`round_div`** of a time that is less than half a unit off. -/
theorem round_div_eq {x c b : Nat} (hlo : b * (2 * c) < x + c)
    (hhi : x < b * (2 * c) + c) : (x + c) / (2 * c) = b :=
  Nat.div_eq_of_lt_le (Nat.le_of_lt hlo) (by rw [Nat.succ_mul]; omega)

/-- What is left to both sides of a time that is less than half a unit off: nothing
overflows, as long as the unit and the time it should be fit. -/
theorem margins {x c b : Nat} (hc : 1 ≤ c) (hb : 190 ≤ b)
    (hnear : |(x : Int) - (b * (2 * c) : Nat)| < c) (hfit : b * (2 * c) + 2 * c < 2 ^ 32) :
    b * (2 * c) < x + c ∧ x < b * (2 * c) + c ∧ 16 * c < 2 ^ 32 ∧ x + c < 2 ^ 32 ∧
      2 * b < 2 ^ 32 := by
  obtain ⟨hlo, hhi⟩ := abs_lt.mp hnear
  have hunits : 190 * (2 * c) ≤ b * (2 * c) := Nat.mul_le_mul_right _ hb
  have hdouble : b * 2 ≤ b * (2 * c) := Nat.mul_le_mul_left _ (by omega)
  exact ⟨by omega, by omega, by omega, by omega, by omega⟩

section Gap

variable {ticksPerCell : BitVec 32}

/-- The time of a byte. -/
theorem toNat_perByte (hfit : 16 * ticksPerCell.toNat < 2 ^ 32) :
    (16 * ticksPerCell / 8).toNat = 2 * ticksPerCell.toNat := by
  have h16 : (16 : BitVec 32).toNat = 16 := rfl
  have h8 : (8 : BitVec 32).toNat = 8 := rfl
  rw [BitVec.toNat_udiv, BitVec.toNat_mul, h16, h8, Nat.mod_eq_of_lt hfit]
  omega

/-- The number of bytes that the scanner computes. -/
theorem toNat_secBytes {ticks : BitVec 32} {b : Nat} (hfit : 16 * ticksPerCell.toNat < 2 ^ 32)
    (hlo : b * (2 * ticksPerCell.toNat) < ticks.toNat + ticksPerCell.toNat)
    (hhi : ticks.toNat < b * (2 * ticksPerCell.toNat) + ticksPerCell.toNat)
    (hmax : b * (2 * ticksPerCell.toNat) + 2 * ticksPerCell.toNat < 2 ^ 32) :
    ((ticks + (16 * ticksPerCell / 8) / 2) / (16 * ticksPerCell / 8)).toNat = b := by
  have h2 : (2 : BitVec 32).toNat = 2 := rfl
  have hhalf : ((16 * ticksPerCell / 8) / 2).toNat = ticksPerCell.toNat := by
    rw [BitVec.toNat_udiv, toNat_perByte hfit, h2]
    omega
  rw [BitVec.toNat_udiv, BitVec.toNat_add, hhalf, toNat_perByte hfit, Nat.mod_eq_of_lt (by omega)]
  exact round_div_eq hlo hhi

/-- **The gap that the scanner computes**, if the time between the headers is less than half
a byte off. -/
theorem scanGap3_eq {max i gap3 : Nat} {i₀ i₁ : ScanInfo} {rest : List ScanInfo} {idam : Idam}
    (hi : 2 ≤ i) (hmax : 2 ≤ max) (hidam : i₀.idam = idam.bytes)
    (hpos : 0 < ticksPerCell.toNat)
    (hfit : sectorBytes gap3 idam * (2 * ticksPerCell.toNat) + 2 * ticksPerCell.toNat < 2 ^ 32)
    (hlo : sectorBytes gap3 idam * (2 * ticksPerCell.toNat) <
      (i₁.ticksPastIndex - i₀.ticksPastIndex).toNat + ticksPerCell.toNat)
    (hhi : (i₁.ticksPastIndex - i₀.ticksPastIndex).toNat <
      sectorBytes gap3 idam * (2 * ticksPerCell.toNat) + ticksPerCell.toNat) :
    scanGap3 ticksPerCell max i (i₀ :: i₁ :: rest) = BitVec.ofNat 32 gap3 := by
  have hsize := idam.le_size
  have hbytes : 62 + idam.size + gap3 = sectorBytes gap3 idam := rfl
  have hcell : 190 * (2 * ticksPerCell.toNat) ≤ sectorBytes gap3 idam * (2 * ticksPerCell.toNat) :=
    Nat.mul_le_mul_right _ (by omega)
  have hlen : sectorBytes gap3 idam ≤ sectorBytes gap3 idam * (2 * ticksPerCell.toNat) :=
    Nat.le_mul_of_pos_right _ (by omega)
  have hsec := toNat_secBytes (by omega) hlo hhi hfit
  have hn : (i₀.idam.getD 3 0).toNat = idam.n.toNat := by rw [hidam]; rfl
  have hshift : (128#32 <<< idam.n.toNat).toNat = idam.size := by
    have h128 : (128#32).toNat = 128 := rfl
    rw [BitVec.toNat_shiftLeft, h128, ← Idam.size, Nat.mod_eq_of_lt (by omega)]
  rw [scanGap3, if_pos ⟨hi, hmax⟩]
  dsimp only
  rw [hn]
  apply BitVec.eq_of_toNat_eq
  rw [BitVec.toNat_sub, BitVec.toNat_sub, hsec, BitVec.toNat_add, hshift, BitVec.toNat_ofNat,
    BitVec.toNat_ofNat, BitVec.toNat_ofNat, mfmGapSync, mfmGap2]
  omega

end Gap

/-- The marks of the first two headers. -/
theorem syncOff_cons_cons (m : Mem) (p : Nat) (a b : Idam) (idams : List Idam) {gap3 : Nat}
    (heven : gap3 % 2 = 0) :
    ∃ x offs, (ibmMfmWriteTrack m p (a :: b :: idams) gap3).syncOff =
      76 :: x :: (76 + sectorBytes gap3 a) :: offs := by
  have hoffs := (ibmMfmWriteTrack_spec m p (a :: b :: idams) heven).1
  have hlen : (sectorItems gap3 ⟨a, List.replicate a.size 0xe2⟩).length = sectorBytes gap3 a := by
    rw [length_sectorItems, List.length_replicate, sectorBytes]
    omega
  rw [freshSectors, List.map_cons, List.map_cons, markOffs, markOffs, hlen,
    Nat.add_right_comm 64 (sectorBytes gap3 a) 12] at hoffs
  exact ⟨_, _, hoffs⟩

/-- They are a sector apart. -/
theorem idealTicks_eq (m : Mem) (p : Nat) (a b : Idam) (idams : List Idam) {gap3 : Nat}
    (heven : gap3 % 2 = 0) (ticksPerCell : Nat) :
    idealTicks ticksPerCell (ibmMfmWriteTrack m p (a :: b :: idams) gap3).syncOff =
      sectorBytes gap3 a * (2 * ticksPerCell) := by
  obtain ⟨x, offs, hoffs⟩ := syncOff_cons_cons m p a b idams heven
  rw [hoffs, idealTicks, timeSysclk]
  show (76 + sectorBytes gap3 a - 76) * 16 * ticksPerCell / 8 = _
  rw [Nat.add_sub_cancel_left, Nat.mul_assoc,
    show 16 * ticksPerCell = 8 * (2 * ticksPerCell) by omega, Nat.mul_left_comm]
  exact Nat.mul_div_cancel_left _ (by decide)

/-- The first two records of a scan. -/
theorem headers_fresh (gap3 : Nat) (start : Nat → BitVec 32) (indexTimestamp : BitVec 32)
    (a b : Idam) (idams : List Idam) (k : Nat) :
    ∃ rest, (Disk.Formatted.headers gap3 start indexTimestamp []
        (freshSectors (a :: b :: idams))).take (k + 2) =
      ⟨a.bytes, start (16 * 76) - indexTimestamp⟩ ::
        ⟨b.bytes, start (16 * (76 + sectorBytes gap3 a)) - indexTimestamp⟩ :: rest := by
  have hlen : sectorsLength gap3 ([] ++ [⟨a, List.replicate a.size 0xe2⟩]) =
      sectorBytes gap3 a := by
    rw [List.nil_append, sectorsLength, List.flatMap_singleton, length_sectorItems,
      List.length_replicate, sectorBytes]
    omega
  rw [freshSectors, List.map_cons, List.map_cons, Disk.Formatted.headers, Disk.Formatted.headers,
    List.take_succ_cons, List.take_succ_cons, hlen,
    Nat.add_right_comm 64 (sectorBytes gap3 a) 12]
  exact ⟨_, rfl⟩

/-- **Scan recovers the gap.**  A scan of a formatted track records the times of its first two
headers; if these are less than half a byte off their ideal distance, the gap that the scanner
computes is the one that was laid out.  It is not negative, and no step of the arithmetic
overflows, as long as the ideal time and that of a byte fit a timer. -/
theorem scan_recovers_gap (m : Mem) (p : Nat) {idams : List Idam} (hlen : 2 ≤ idams.length)
    {gap3 : Nat} (heven : gap3 % 2 = 0) (fs : List Byte) (n : Nat) {resume : Nat → Nat}
    (hresume : (formattedDisk m p idams gap3 fs n).Timely 10 resume) (start : Nat → BitVec 32)
    {fuel : Nat} (m' : Mem) (p' : Nat) {max : Nat} {ticksPerCell : BitVec 32}
    (indexTimestamp : BitVec 32) {t : Nat} (hfuel : 2 * idams.length < fuel)
    (ht : t ≤ 16 * (64 + mfmGapSync)) (hmax : 2 ≤ max) (hcell : 1 ≤ ticksPerCell.toNat) :
    let offs := (ibmMfmWriteTrack m p idams gap3).syncOff
    ∃ r i₀ i₁ rest, ibmMfmScan (formattedDisk m p idams gap3 fs n) resume start fuel m' p' max
        ticksPerCell indexTimestamp t = some r ∧ r.info = i₀ :: i₁ :: rest ∧
      i₀.ticksPastIndex = start (16 * offs.getD 0 0) - indexTimestamp ∧
      i₁.ticksPastIndex = start (16 * offs.getD 2 0) - indexTimestamp ∧
      let ticks := (i₁.ticksPastIndex - i₀.ticksPastIndex).toNat
      let perByte := timeSysclk (16 * ticksPerCell.toNat)
      let ideal := idealTicks ticksPerCell.toNat offs
      |(ticks : Int) - ideal| < (perByte / 2 : Nat) → ideal + perByte < 2 ^ 32 →
        r.gap3 = BitVec.ofNat 32 gap3 ∧ 0 ≤ r.gap3.toInt ∧
        16 * ticksPerCell.toNat < 2 ^ 32 ∧ ticks + perByte / 2 < 2 ^ 32 ∧
        (ticks + perByte / 2) / perByte = 62 + 128 <<< (i₀.idam.getD 3 0).toNat + gap3 ∧
        62 + 128 <<< (i₀.idam.getD 3 0).toNat + gap3 < 2 ^ 31 := by
  obtain ⟨a, b, idams, rfl⟩ : ∃ a b l, idams = a :: b :: l := by
    obtain _ | ⟨a, _ | ⟨b, l⟩⟩ := idams
    · cases hlen
    · exact absurd hlen (Nat.not_le_of_lt (Nat.lt_succ_self 1))
    · exact ⟨a, b, l, rfl⟩
  obtain ⟨k, rfl⟩ : ∃ k, max = k + 2 := ⟨max - 2, by omega⟩
  have hcount : (freshSectors (a :: b :: idams)).length = (a :: b :: idams).length :=
    List.length_map _
  obtain ⟨r, hscan, hr, hinfo, hgap⟩ :=
    (formattedDisk_formatted m p (a :: b :: idams) heven fs n).ibmMfmScan_records
      (List.cons_ne_nil _ _) hresume start m' p' (k + 2) ticksPerCell indexTimestamp
      (by rw [hcount]; exact hfuel) ht
  obtain ⟨rest, hrest⟩ := headers_fresh gap3 start indexTimestamp a b idams k
  obtain ⟨x, offs, hoffs⟩ := syncOff_cons_cons m p a b idams heven
  rw [hrest] at hinfo
  refine ⟨r, _, _, rest, hscan, hinfo, ?_, ?_, ?_⟩
  · rw [hoffs]
    rfl
  · rw [hoffs]
    rfl
  intro ticks perByte ideal hnear hfit
  have hideal : ideal = sectorBytes gap3 a * (2 * ticksPerCell.toNat) :=
    idealTicks_eq m p a b idams heven _
  have hper : perByte = 2 * ticksPerCell.toNat := by
    show 16 * ticksPerCell.toNat / 8 = _
    omega
  have hhalf : perByte / 2 = ticksPerCell.toNat := by omega
  rw [hhalf] at hnear ⊢
  rw [hideal] at hnear hfit
  rw [hper] at hfit ⊢
  have hn : 62 + 128 <<< (a.bytes.getD 3 0).toNat + gap3 = sectorBytes gap3 a := rfl
  have hlarge : 190 ≤ sectorBytes gap3 a := by
    have hsize := a.le_size
    rw [sectorBytes]
    omega
  obtain ⟨hlo, hhi, hbyte, hsum, hsmall⟩ := margins hcell hlarge hnear hfit
  have hlaid : r.gap3 = BitVec.ofNat 32 gap3 := by
    rw [hgap, hinfo]
    exact scanGap3_eq (by rw [hr, hcount]; exact hlen) hmax rfl hcell hfit hlo hhi
  have hpositive : 2 * (BitVec.ofNat 32 gap3).toNat < 2 ^ 32 := by
    have hbytes : sectorBytes gap3 a = 62 + a.size + gap3 := rfl
    rw [BitVec.toNat_ofNat]
    omega
  refine ⟨hlaid, ?_, hbyte, hsum, ?_, by rw [hn]; omega⟩
  · rw [hlaid, BitVec.toInt_eq_toNat_of_lt hpositive]
    exact Int.natCast_nonneg _
  · rw [hn]
    exact round_div_eq hlo hhi

/-- Two sectors of 128 bytes, 84 bytes apart, recorded without an error: a bitcell of 144 ticks
of SYSCLK is one of 18 on the timer. -/
theorem scan_recovers_gap_two_sectors :
    ∃ r, ibmMfmScan (formattedDisk (fun _ => 0) 0 [⟨0, 0, 1, 0⟩, ⟨0, 0, 2, 0⟩] 84 [] 0) id
        (fun o => BitVec.ofNat 32 (18 * o)) 5 (fun _ => 0) 0 8 144 0 0 = some r ∧ r.gap3 = 84 := by
  have hlen : 2 ≤ ([⟨0, 0, 1, 0⟩, ⟨0, 0, 2, 0⟩] : List Idam).length := by decide
  have heven : 84 % 2 = 0 := by decide
  have hresume : (formattedDisk (fun _ => 0) 0 [⟨0, 0, 1, 0⟩, ⟨0, 0, 2, 0⟩] 84 [] 0).Timely 10
      id :=
    fun _ _ => ⟨Nat.le_refl _, fun _ hle hlt => absurd hlt (Nat.not_lt_of_le hle)⟩
  have hfuel : 2 * ([⟨0, 0, 1, 0⟩, ⟨0, 0, 2, 0⟩] : List Idam).length < 5 := by decide
  have ht : 0 ≤ 16 * (64 + mfmGapSync) := Nat.zero_le _
  have hmax : 2 ≤ 8 := by decide
  have hcell : 1 ≤ (144 : BitVec 32).toNat := by decide
  obtain ⟨r, i₀, i₁, rest, hscan, -, ht₀, ht₁, hgap⟩ := scan_recovers_gap (fun _ => 0) 0 hlen
    heven [] 0 hresume (fun o => BitVec.ofNat 32 (18 * o)) (fun _ => 0) 0 0 hfuel ht hmax hcell
  have hideal := idealTicks_eq (fun _ => 0) 0 ⟨0, 0, 1, 0⟩ ⟨0, 0, 2, 0⟩ [] heven
    (144 : BitVec 32).toNat
  obtain ⟨x, offs, hoffs⟩ := syncOff_cons_cons (fun _ => 0) 0 ⟨0, 0, 1, 0⟩ ⟨0, 0, 2, 0⟩ [] heven
  rw [hoffs] at ht₀ ht₁
  have hstart₀ : i₀.ticksPastIndex = BitVec.ofNat 32 (18 * (16 * 76)) - 0 := ht₀
  have hstart₁ : i₁.ticksPastIndex = BitVec.ofNat 32 (18 * (16 * (76 + 274))) - 0 :=
    ht₁
  refine ⟨r, hscan, (hgap ?_ ?_).1⟩
  · rw [hideal, hstart₀, hstart₁]
    decide
  · rw [hideal]
    decide

end FlashFloppyTestbed
