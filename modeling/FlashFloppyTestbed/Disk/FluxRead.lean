/-
  Disk/FluxRead.lean --- the code of `floppy_read` against a revolution.

  The modules of this directory read a revolution by `Disk.floppyRead` and
  `Disk.floppyReadFm`.  Here the code of `floppy_read` runs on the flux of the
  revolution: a DMA engine captures a timer at each set bitcell, a little early or
  late, between the polls that take the captures out of its ring.  Whatever the errors
  and the polls, the read ends with the memory of the former (`floppy_read_refines`).
-/
import FlashFloppyTestbed.Disk.IbmFm
import FlashFloppyTestbed.Floppy.Polling

set_option autoImplicit false

namespace FlashFloppyTestbed

open FlashFloppyTestbed.Foundation FlashFloppyTestbed.Floppy

namespace Disk

/-! ## Reads of either kind -/

/-- The position of the first bitcell that a read delivers. -/
def readStart (d : Disk) (t : Nat) : Sync → Option Nat
  | .none => some t
  | .fm => (d.findFmSync t).map (· + 1)
  | .mfm => d.findSync t

/-- What a read that starts at position `t` leaves, for any `rd->sync`. -/
def readFrom (d : Disk) (sync : Sync) (m : Mem) (p nrWords t : Nat) : Option (Mem × Nat) :=
  (d.readStart t sync).map fun o => (m.stBits p (d.stream o (16 * nrWords)), o)

theorem readFrom_mfm (d : Disk) (m : Mem) (p nrWords t : Nat) :
    d.readFrom .mfm m p nrWords t = d.floppyRead m p nrWords t := rfl

theorem readFrom_fm (d : Disk) (m : Mem) (p nrWords t : Nat) :
    d.readFrom .fm m p nrWords t = d.floppyReadFm m p nrWords t := by
  rw [readFrom, readStart, Option.map_map]
  rfl

/-! ## The flux of a revolution -/

/-- The captures of the `n` bitcells from position `t` on, the last of which is set: each
interval between two of them is off by less than half a bitcell. -/
structure Captured (d : Disk) (cell : BitVec 16) (t n : Nat) (cnt : BitVec 16)
    (caps : List (BitVec 16)) : Prop where
  small : cell.toNat ≤ 43690
  timed : ∃ gs, ofGaps gs = d.stream t n ∧ List.Forall₂ (Timed cell.toNat) gs (intervals cnt caps) ∧
    ∀ g ∈ gs, g * cell.toNat ≤ 65535

variable {d : Disk} {cell cnt : BitVec 16} {t n : Nat} {caps : List (BitVec 16)} {sync : Sync}

/-- The bitcells behind a mark, as far as they are the reader's. -/
theorem readStart_of_shows (hne : sync ≠ .none) (hsize : 0 < d.size) {o : Nat} (hle : t ≤ o)
    (hshows : sync.Shows (d.stream o 32))
    (hfirst : ∀ o', t ≤ o' → o' < o → ¬ sync.Shows (d.stream o' 32)) :
    d.readStart t sync = some (o + 32 - sync.found (pushBits (~~~0) (d.stream o 32))) := by
  cases sync with
  | none => exact absurd rfl hne
  | fm =>
    have hfind : d.findFmSync t = some o :=
      find?_ring_eq (fun o => by rw [FmSyncAt, FmSyncAt, stream, stream, window_mod]) hshows hle
        hfirst hsize
    have hfound : Sync.fm.found (pushBits (~~~0) (d.stream o 32)) = 31 := by
      rcases Sync.fm.found_eq _ hshows with h | h
      · exact h
      · rw [Sync.found] at h
        split at h <;> split at h <;> simp_all
    rw [readStart, hfind, hfound]
    rfl
  | mfm =>
    have hsync : ∀ o, d.SyncAt o ↔ Sync.mfm.Shows (d.stream o 32) := d.syncAt_iff_shows
    have hfind : d.findSync t = some o :=
      findSync_eq ((hsync o).mpr hshows) hle (fun o' hlo hhi => (hsync o').not.mpr
        (hfirst o' hlo hhi)) hsize
    have hfound : Sync.mfm.found (pushBits (~~~0) (d.stream o 32)) = 32 := by
      rcases Sync.mfm.found_eq _ hshows with h | h
      · rw [Sync.found] at h
        split at h <;> split at h <;> simp_all
      · exact h
    rw [readStart, hfind, hfound, Nat.add_sub_cancel]

/-- **What captures of a revolution deliver** is the bitcells from the start of the read on. -/
theorem Captured.start (h : d.Captured cell t n cnt caps) (hsize : 0 < d.size) {bcMax : Nat}
    {cells : List Bool} (hcells : readCells sync cell bcMax (intervals cnt caps) = some cells) :
    ∃ o, d.readStart t sync = some o ∧ cells = d.stream o (t + n - o) := by
  obtain ⟨gs, hgs, htimed, hfit⟩ := h.timed
  by_cases hne : sync = .none
  · subst hne
    rw [readCells, if_pos rfl, cellsOf_timed h.small bcMax htimed, hgs] at hcells
    exact ⟨t, rfl, by rw [Nat.add_sub_cancel_left]; exact (Option.some.inj hcells).symm⟩
  -- the scan has stopped at the first mark
  have hscan := scan_timed sync htimed []
  simp only [pushBits_nil, List.nil_append, List.length_nil] at hscan
  rw [readCells, if_neg hne] at hcells
  cases hfound : (sync.scan cell (~~~0) (intervals cnt caps)).found with
  | false =>
    simp only [hfound, Bool.false_eq_true, if_false] at hcells
    cases hcells
  | true =>
    obtain ⟨gs₁, gs₂, rfl, htimed₂, hwindow, hmark, hnot⟩ := hscan.1 hfound
    obtain ⟨k, hk⟩ : ∃ k, (ofGaps gs₁).length = k + 32 :=
      ⟨(ofGaps gs₁).length - 32, by have := hmark.le_length; omega⟩
    have hlen : (ofGaps (gs₁ ++ gs₂)).length = n := by rw [hgs, length_stream]
    have hle : k + 32 ≤ n := by
      rw [← hlen, ofGaps_append, List.length_append]
      omega
    have hbehind : ∀ j, j + 32 ≤ n → (ofGaps (gs₁ ++ gs₂)).take (j + 32) =
        d.stream t j ++ d.stream (t + j) 32 := by
      intro j hj
      rw [hgs, take_stream d t hj, stream_add]
    have hfront : ofGaps gs₁ = d.stream t k ++ d.stream (t + k) 32 := by
      rw [← hbehind k hle, ← hk, ofGaps_append, List.take_left' rfl]
    have hshows : ∀ j, j + 32 ≤ n → (sync.Shows ((ofGaps (gs₁ ++ gs₂)).take (j + 32)) ↔
        sync.Shows (d.stream (t + j) 32)) := by
      intro j hj
      rw [hbehind j hj, Sync.shows_append _ (Nat.le_of_eq (length_stream _ _ _).symm)]
    rw [hfront, Sync.shows_append _ (Nat.le_of_eq (length_stream _ _ _).symm)] at hmark
    have hfirst : ∀ o', t ≤ o' → o' < t + k → ¬ sync.Shows (d.stream o' 32) := by
      intro o' hlo hhi
      have hj := hshows (o' - t) (by omega)
      rw [Nat.add_sub_of_le hlo] at hj
      rw [← hj]
      exact hnot _ (by omega) (by omega)
    refine ⟨_, readStart_of_shows hne hsize (Nat.le_add_right t k) hmark hfirst, ?_⟩
    have hall := readCells_stream hne bcMax htimed hfit hgs (Nat.le_add_right t k) (by omega) hmark
      hfirst
    rw [readCells, if_neg hne, hcells] at hall
    have hmany := sync.found_eq _ hmark
    rw [Option.some.inj hall, drop_stream d t (by omega)]
    congr 1 <;> omega

/-- A mark that has gone by is seen. -/
theorem Captured.seen (h : d.Captured cell t n cnt caps) {o : Nat}
    (hstart : d.readStart t sync = some o) (bcMax : Nat) (hin : o + 32 ≤ t + n) :
    readCells sync cell bcMax (intervals cnt caps) = some (d.stream o (t + n - o)) := by
  obtain ⟨gs, hgs, htimed, hfit⟩ := h.timed
  cases sync with
  | none =>
    obtain rfl : t = o := Option.some.inj hstart
    rw [readCells, if_pos rfl, cellsOf_timed h.small bcMax htimed, hgs, Nat.add_sub_cancel_left]
  | fm =>
    obtain ⟨o, hfind, rfl⟩ := Option.map_eq_some_iff.mp hstart
    obtain ⟨hmark, hle, hfirst⟩ := of_find?_ring hfind
    have hmany := Sync.fm.found_eq _ hmark
    have hstart' := readStart_of_shows (by decide) ?_ hle hmark hfirst
    · rw [hstart'] at hstart
      rw [readCells_stream (by decide) bcMax htimed hfit hgs hle (by omega) hmark hfirst,
        drop_stream d t (by omega), ← Option.some.inj hstart]
      congr 2 <;> omega
    · by_contra hzero
      rw [findFmSync, Nat.eq_zero_of_not_pos hzero] at hfind
      cases hfind
  | mfm => exact readCells_eq_stream bcMax htimed hfit hgs hstart hin

end Disk

/-! ## The code -/

/-- A buffer that was filled with bitcells is the one they were stored into. -/
theorem Floppy.Filled.eq_stBits {m₀ m : Mem} {p nrWords : Nat} {cells : List Bool}
    (h : Filled m₀ p (nrWords * 16) cells m) :
    m = m₀.stBits p (cells.take (16 * nrWords)) := by
  have henough := h.enough
  have hlen : (cells.take (16 * nrWords)).length = 8 * (nrWords * 16 / 8) := by
    rw [List.length_take]
    omega
  funext a
  by_cases hin : p ≤ a ∧ a < p + nrWords * 16 / 8
  · refine Mem.eq_of_bits_eq ?_ hin.1 hin.2
    rw [h.stored, Mem.bits_stBits _ _ _ _ hlen, Nat.mul_comm]
  · rw [h.frame a (by omega), Mem.stBits, if_neg (by rw [hlen]; omega)]

/-- **`floppy_read` refines the read of a revolution.**  On well-timed captures of the flux
from position `t` on, with any split between polls: a read that has returned has left the
memory that `readFrom` says; and as soon as the captures go as far as the bitcells asked for,
it returns within two polls. -/
theorem floppy_read_refines {d : Disk} (hsize : 0 < d.size) {m₀ : Mem} {ticksPerCell : BitVec 32}
    {rd : Read} {cnt : BitVec 16} {buf : Nat → BitVec 16} {rx : Rx} {now : BitVec 32} {s : RdRun}
    {t n : Nat} (hwords : 4 ≤ rd.nrWords) (hprep : floppyReadPrep rd cnt buf = some rx)
    (hrun : Relation.ReflTransGen (RdStep ticksPerCell) (RdRun.enter m₀ rx now) s)
    (hcaps : d.Captured (ticksPerCell.setWidth 16) t n cnt s.arrived) :
    (s.phase = .done → ∃ o, d.readFrom rd.sync m₀ rd.p rd.nrWords t = some (s.m, o)) ∧
    ∀ m o, d.readFrom rd.sync m₀ rd.p rd.nrWords t = some (m, o) → o + 16 * rd.nrWords ≤ t + n →
      ∀ now₁ now₂, let s' := (s.poll ticksPerCell now₁).poll ticksPerCell now₂
        s'.phase = .done ∧ s'.m = m := by
  have hreturned : ∀ {s' : RdRun}, s'.Inv m₀ (ticksPerCell.setWidth 16) rd cnt →
      s'.arrived = s.arrived → s'.phase = .done →
      ∃ o, d.readFrom rd.sync m₀ rd.p rd.nrWords t = some (s'.m, o) := by
    intro s' hinv harrived hdone
    obtain ⟨cells, hcells, hfilled⟩ := hinv.done hdone
    rw [harrived] at hcells
    obtain ⟨o, hstart, rfl⟩ := hcaps.start hsize hcells
    have henough := hfilled.enough
    rw [Disk.length_stream] at henough
    refine ⟨o, ?_⟩
    rw [Disk.readFrom, hstart, Option.map_some, hfilled.eq_stBits,
      Disk.take_stream d o (by omega)]
  have hinv := RdRun.Inv.of_run hwords hprep hrun
  refine ⟨hreturned hinv rfl, fun m o hread hfar now₁ now₂ => ?_⟩
  have heven : rd.nrWords % 2 = 0 := by
    unfold floppyReadPrep at hprep
    split at hprep
    · rename_i hassert
      exact hassert.2
    · cases hprep
  obtain ⟨o', hstart, hpair⟩ := Option.map_eq_some_iff.mp hread
  obtain ⟨-, rfl⟩ := Prod.mk.inj hpair
  have hcells := hcaps.seen hstart (rd.nrWords * 16) (by omega)
  have hdone := hinv.two_polls now₁ now₂ hwords heven hcells
    (by rw [Disk.length_stream]; omega)
  have hinv₁ := hinv.step (.poll s now₁) hwords heven
  have hinv₂ := hinv₁.step (.poll _ now₂) hwords heven
  obtain ⟨o'', hread'⟩ := hreturned hinv₂
    (by rw [RdRun.poll_arrived, RdRun.poll_arrived]) hdone
  rw [hread] at hread'
  exact ⟨hdone, (Prod.mk.inj (Option.some.inj hread')).1.symm⟩

/-- A revolution of four words, read from its mark on, with errors of one tick in a bitcell
of four. -/
theorem floppy_read_refines_one_mark : ∃ s : RdRun, s.arrived.length = 12 ∧
    let s' := (s.poll 4 0).poll 4 0
    s'.phase = .done ∧ s'.m.words 0 4 = [0x4489, 0x4489, 0x0001, 0x0001] := by
  obtain ⟨bits, hbits⟩ : ∃ bits, bits =
      ([0x4489, 0x4489, 0x0001, 0x0001] : List (BitVec 16)).flatMap bitsOf := ⟨_, rfl⟩
  obtain ⟨hrun, harrived⟩ := RdRun.run_captures 4
    [9, 24, 37, 52, 65, 72, 89, 100, 117, 128, 193, 256]
    (RdRun.enter (fun _ => 0) ⟨⟨0, 4, .mfm, 0, 0, ~~~0, 0⟩, 0, 0, fun _ => 0, Cndtr.start⟩ 0)
    (Nat.le_refl _) (by decide)
  have htimed := @timed_of_errors 4 [2, 4, 3, 4, 3, 2, 4, 3, 4, 3, 16, 16]
    [1, -1, 1, -1, 1, -1, 1, -1, 1, -1, 1, -1] (by decide) (by decide) (by decide) (by decide)
  have hcaps : (Disk.ofBits bits).Captured (BitVec.setWidth 16 (4 : BitVec 32)) 0 64 0
      [9, 24, 37, 52, 65, 72, 89, 100, 117, 128, 193, 256] :=
    ⟨by decide, [2, 4, 3, 4, 3, 2, 4, 3, 4, 3, 16, 16],
      by rw [hbits]; decide, htimed, by decide⟩
  have hfind : (Disk.ofBits bits).findSync 0 = some 0 :=
    Disk.findSync_self (by rw [hbits]; decide) (by rw [hbits]; decide)
  have hread : (Disk.ofBits bits).readFrom .mfm (fun _ => 0) 0 4 0 = some (_, 0) :=
    congrArg (Option.map _) hfind
  refine ⟨_, by rw [harrived]; rfl, ?_⟩
  obtain ⟨hdone, hmem⟩ := (floppy_read_refines (t := 0) (n := 64) (by rw [hbits]; decide)
    (by decide) (show floppyReadPrep ⟨0, 4, .mfm, 0, 0, 0, 0⟩ 0 (fun _ => 0) = some _ from rfl) hrun
    (by rw [harrived]; exact hcaps)).2 _ 0 hread (by decide) 0 0
  refine ⟨hdone, ?_⟩
  rw [hmem, hbits]
  decide

end FlashFloppyTestbed
