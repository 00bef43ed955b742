/-
  Floppy/Quantiser.lean --- the two quantisers of the read path.

  `rdata_wait_sync` divides a flux interval by the bitcell; `rdata_flux_to_bc` subtracts
  bitcells while more than one and a half are left.  The first rounds up an interval that
  lies exactly between two numbers of bitcells, the second rounds it down; everywhere else
  they agree (`flux_quantisers_agree_iff`).
-/
import FlashFloppyTestbed.Floppy.RoundTrip

set_option autoImplicit false

namespace FlashFloppyTestbed.Floppy

open FlashFloppyTestbed.Foundation

/-- An interval exactly between `k` and `k + 1` bitcells. -/
def OnBoundary (cell curr : BitVec 16) : Prop :=
  ∃ k, 0 < k ∧ curr.toNat = k * cell.toNat + cell.toNat / 2

/-- The number of bitcells that `rdata_flux_to_bc` appends for an interval. -/
def fluxNr (cell : BitVec 16) (bcMax : Nat) (curr : BitVec 16) : Nat :=
  (intervalCells cell bcMax curr).length

/-- The bitcells that `rdata_wait_sync` shifts in for some intervals. -/
def waitCells (cell : BitVec 16) (l : List (BitVec 16)) : List Bool :=
  ofGaps (l.map (waitNr cell))

section Quantiser

variable {cell : BitVec 16}

/-- The division: an interval of less than half a bitcell gives a negative difference,
which is rounded towards zero. -/
theorem waitNr_eq (cell curr : BitVec 16) :
    waitNr cell curr = (curr.toNat - cell.toNat / 2) / cell.toNat + 1 := by
  rw [waitNr, toNat_half]
  rcases Nat.lt_or_ge curr.toNat (cell.toNat / 2) with hshort | hlong
  · have hdiff : (curr.toNat : Int) - ((cell.toNat / 2 : Nat) : Int) =
        -((cell.toNat / 2 - curr.toNat : Nat) : Int) := by omega
    rw [hdiff, Int.neg_tdiv, ← Int.ofNat_tdiv, Nat.div_eq_of_lt (by omega),
      show curr.toNat - cell.toNat / 2 = 0 by omega, Nat.zero_div]
    rfl
  · have hdiff : (curr.toNat : Int) - ((cell.toNat / 2 : Nat) : Int) =
        ((curr.toNat - cell.toNat / 2 : Nat) : Int) := by omega
    rw [hdiff, ← Int.ofNat_tdiv]
    exact Int.toNat_natCast _

/-- The loop, by the number of times it subtracts. -/
theorem fluxBits_eq {window : BitVec 16} (hcell : 0 < cell.toNat)
    (hwindow : window.toNat = cell.toNat + cell.toNat / 2) : ∀ (k fuel : Nat) (curr : BitVec 16),
    (curr.toNat - (cell.toNat / 2 + 1)) / cell.toNat = k → k < fuel →
      fluxBits cell window fuel curr = gapBits (k + 1) := by
  intro k
  induction k with
  | zero =>
    intro fuel curr hk hfuel
    obtain ⟨fuel, rfl⟩ : ∃ f, fuel = f + 1 := ⟨fuel - 1, by omega⟩
    have hlt : curr.toNat - (cell.toNat / 2 + 1) < cell.toNat :=
      (Nat.div_eq_zero_iff_lt hcell).mp hk
    rw [fluxBits, if_neg (by rw [BitVec.lt_def, hwindow]; omega)]
    rfl
  | succ k ih =>
    intro fuel curr hk hfuel
    obtain ⟨fuel, rfl⟩ : ∃ f, fuel = f + 1 := ⟨fuel - 1, by omega⟩
    have hge : cell.toNat ≤ curr.toNat - (cell.toNat / 2 + 1) := by
      by_contra hlt
      rw [Nat.div_eq_of_lt (Nat.lt_of_not_le hlt)] at hk
      cases hk
    have hsub : (curr - cell).toNat = curr.toNat - cell.toNat := by
      rw [BitVec.toNat_sub_of_le]
      rw [BitVec.le_def]
      omega
    have hrest : ((curr - cell).toNat - (cell.toNat / 2 + 1)) / cell.toNat = k := by
      rw [Nat.div_eq_sub_div hcell hge] at hk
      rw [hsub, Nat.sub_right_comm]
      exact Nat.succ.inj hk
    rw [fluxBits, if_pos (by rw [BitVec.lt_def, hwindow]; omega), ih fuel _ hrest (by omega),
      gapBits, gapBits]
    rfl

theorem intervalCells_eq (hcell : 0 < cell.toNat) (hfit : cell.toNat ≤ 43690) (bcMax : Nat)
    (curr : BitVec 16) : intervalCells cell bcMax curr =
      gapBits ((curr.toNat - (cell.toNat / 2 + 1)) / cell.toNat + 1) := by
  refine fluxBits_eq hcell ?_ _ _ curr rfl ?_
  · rw [BitVec.toNat_add, toNat_half]
    omega
  · have hle : (curr.toNat - (cell.toNat / 2 + 1)) / cell.toNat ≤ curr.toNat :=
      (Nat.div_le_self _ _).trans (Nat.sub_le _ _)
    rw [intervalFuel]
    omega

theorem fluxNr_eq (hcell : 0 < cell.toNat) (hfit : cell.toNat ≤ 43690) (bcMax : Nat)
    (curr : BitVec 16) :
    fluxNr cell bcMax curr = (curr.toNat - (cell.toNat / 2 + 1)) / cell.toNat + 1 := by
  rw [fluxNr, intervalCells_eq hcell hfit, length_gapBits (Nat.succ_pos _)]

/-- The quotient of a number and of the one in front of it differ at the multiples. -/
theorem div_eq_pred_div_iff {n c : Nat} (hc : 0 < c) :
    n / c = (n - 1) / c ↔ ¬ ∃ k, 0 < k ∧ n = k * c := by
  constructor
  · rintro heq ⟨k, hk, rfl⟩
    have hpred : (k * c - 1) / c < k := by
      rw [Nat.div_lt_iff_lt_mul hc]
      have := Nat.mul_pos hk hc
      omega
    rw [Nat.mul_div_cancel k hc] at heq
    omega
  · intro hnot
    rcases Nat.eq_zero_or_pos n with rfl | hn
    · rfl
    · by_contra hne
      have hle : (n - 1) / c ≤ n / c := Nat.div_le_div_right (Nat.sub_le n 1)
      have hlt : n - 1 < n / c * c := (Nat.div_lt_iff_lt_mul hc).mp (by omega)
      have hback := Nat.div_mul_le_self n c
      refine hnot ⟨n / c, Nat.pos_of_ne_zero fun hzero => ?_, by omega⟩
      rw [hzero, Nat.zero_mul] at hlt
      omega

theorem waitNr_eq_fluxNr_iff (hcell : 0 < cell.toNat) (hfit : cell.toNat ≤ 43690) (bcMax : Nat)
    (curr : BitVec 16) : waitNr cell curr = fluxNr cell bcMax curr ↔ ¬ OnBoundary cell curr := by
  rw [waitNr_eq, fluxNr_eq hcell hfit, Nat.add_right_cancel_iff, Nat.add_comm (_ / 2) 1,
    Nat.add_comm 1, ← Nat.sub_sub, div_eq_pred_div_iff hcell, OnBoundary]
  refine not_congr (exists_congr fun k => and_congr_right fun hk => ?_)
  have hone : cell.toNat ≤ k * cell.toNat := Nat.le_mul_of_pos_left _ hk
  omega

theorem cellsOf_eq (hcell : 0 < cell.toNat) (hfit : cell.toNat ≤ 43690) (bcMax : Nat)
    (l : List (BitVec 16)) : cellsOf cell bcMax l = ofGaps (l.map (fluxNr cell bcMax)) := by
  rw [cellsOf, ofGaps, List.flatMap_map]
  congr 1
  funext curr
  rw [fluxNr_eq hcell hfit, intervalCells_eq hcell hfit]

/-- The register of a scan that has not found its mark. -/
theorem scan_window (sync : Sync) (l : List (BitVec 16)) : ∀ w,
    (sync.scan cell w l).found = false →
      (sync.scan cell w l).window = pushBits w (waitCells cell l) := by
  induction l with
  | nil => exact fun _ _ => rfl
  | cons curr l ih =>
    intro w hnot
    simp only [Sync.scan] at hnot ⊢
    have hgap : (w <<< waitNr cell curr) ||| 1 = pushBits w (gapBits (waitNr cell curr)) := by
      rw [waitNr_eq, gapBits, pushBits_gap]
      rfl
    split at hnot
    · cases hnot
    · rename_i hfound
      rw [if_neg hfound, ih _ hnot, hgap, ← pushBits_append]
      rfl

end Quantiser

/-- **The two quantisers agree** on an interval if and only if it is not exactly between
two numbers of bitcells; and on a stream of intervals, bitcell by bitcell, if and only if
none of them is.  The bitcells of a stream are what `rdata_wait_sync` shifts into its
register, and what `rdata_flux_to_bc` delivers. -/
theorem flux_quantisers_agree_iff {cell : BitVec 16} (hlo : 2 ≤ cell.toNat)
    (hhi : cell.toNat ≤ 16383) (bcMax : Nat) :
    (∀ curr, waitNr cell curr = fluxNr cell bcMax curr ↔ ¬ OnBoundary cell curr) ∧
    (∀ l, waitCells cell l = cellsOf cell bcMax l ↔ ∀ curr ∈ l, ¬ OnBoundary cell curr) ∧
    ∀ (sync : Sync) (w : BitVec 32) (l : List (BitVec 16)),
      (sync.scan cell w l).found = false →
        (sync.scan cell w l).window = pushBits w (waitCells cell l) := by
  have hcell : 0 < cell.toNat := by omega
  have hfit : cell.toNat ≤ 43690 := by omega
  have hiff := waitNr_eq_fluxNr_iff hcell hfit bcMax
  refine ⟨hiff, fun l => ?_, fun sync w l => scan_window sync l w⟩
  have hwait : ∀ n ∈ l.map (waitNr cell), 0 < n := by
    intro n hn
    obtain ⟨curr, -, rfl⟩ := List.mem_map.mp hn
    rw [waitNr_eq]
    exact Nat.succ_pos _
  have hflux : ∀ n ∈ l.map (fluxNr cell bcMax), 0 < n := by
    intro n hn
    obtain ⟨curr, -, rfl⟩ := List.mem_map.mp hn
    rw [fluxNr_eq hcell hfit]
    exact Nat.succ_pos _
  -- a stream of bitcells is determined by its gaps
  have hgaps : waitCells cell l = cellsOf cell bcMax l ↔
      l.map (waitNr cell) = l.map (fluxNr cell bcMax) := by
    rw [cellsOf_eq hcell hfit, waitCells]
    constructor
    · intro heq
      rw [← gaps_ofGaps hwait, heq, gaps_ofGaps hflux]
    · intro heq
      rw [heq]
  rw [hgaps, List.map_inj_left]
  exact forall₂_congr fun curr _ => hiff curr

/-- One and a half bitcells of 144 ticks: two bitcells before the sync mark, one behind it. -/
theorem flux_quantisers_disagree :
    waitNr 144 216 = 2 ∧ ∀ bcMax, fluxNr 144 bcMax 216 = 1 := by
  refine ⟨by decide, fun bcMax => ?_⟩
  rw [fluxNr_eq (by decide) (by decide)]
  decide

/-- One bitcell and three quarters. -/
theorem flux_quantisers_agree_iff_off_boundary : waitNr 144 252 = fluxNr 144 32 252 := by
  have hlo : 2 ≤ (144 : BitVec 16).toNat := by decide
  refine ((flux_quantisers_agree_iff hlo (by decide) 32).1 252).mpr ?_
  rintro ⟨k, hk, heq⟩
  have heq : 252 = k * 144 + 72 := heq
  omega

end FlashFloppyTestbed.Floppy
