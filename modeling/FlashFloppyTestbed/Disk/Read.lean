/-
  Disk/Read.lean --- `floppy_read` on a revolution: wait for the sync mark, then
  deliver bitcells into a buffer.

  This is what `floppy_read` comes to when the flux is timed well enough
  (`Disk.readCells_eq_stream`): the first mark at or behind the position at which
  the read starts, and the bitcells from there on.  On a track the buffer then
  holds words, and after `mfm_to_bin` the bytes they stand for
  (`Disk.Track.floppyRead_spec`).

  A read does not tell of long flux.  The `warned` flags of the functions that read are
  those of their own `WARN_ON`s and of `mfm_check`'s.
-/
import FlashFloppyTestbed.Disk.Revolution

set_option autoImplicit false

namespace FlashFloppyTestbed

open FlashFloppyTestbed.Foundation FlashFloppyTestbed.Floppy

/-! ## Bitcells into memory -/

namespace Mem

/-- Store bitcells from address `a` on, eight to a byte. -/
def stBits (m : Mem) (a : Nat) (l : List Bool) : Mem := fun i =>
  if a ≤ i ∧ i < a + l.length / 8 then pushBits 0 ((l.drop (8 * (i - a))).take 8) else m i

theorem bits_stBits (m : Mem) : ∀ (n a : Nat) (l : List Bool), l.length = 8 * n →
    (m.stBits a l).bits a n = l
  | 0, _, l, h => by
    rw [List.length_eq_zero_iff.mp h]
    rfl
  | n + 1, a, l, h => by
    have hfirst : bitsOf (m.stBits a l a) = l.take 8 := by
      rw [stBits, if_pos (by omega), Nat.sub_self, Nat.mul_zero, List.drop_zero,
        bitsOf_pushBits _ _ (by rw [List.length_take]; omega)]
      rw [List.length_take, show min 8 l.length - 8 = 0 by omega, List.drop_zero]
    have hrest : (m.stBits a l).bits (a + 1) n = (m.stBits (a + 1) (l.drop 8)).bits (a + 1) n := by
      refine bits_congr fun i hlo hhi => ?_
      rw [stBits, stBits, List.length_drop, if_pos (by omega), if_pos (by omega), List.drop_drop]
      congr 4
      omega
    rw [Nat.add_comm n 1, bits_add, hrest,
      bits_stBits m n (a + 1) (l.drop 8) (by rw [List.length_drop]; omega)]
    conv => rhs; rw [← List.take_append_drop 8 l, ← hfirst]
    simp [bits, bytes_succ, bytes_zero]

end Mem

/-- A buffer that bitcells of whole words were stored into holds these words. -/
theorem Mem.words_stBits (m : Mem) (a : Nat) (ws : List (BitVec 16)) :
    (m.stBits a (ws.flatMap bitsOf)).words a ws.length = ws := by
  have hlen : (ws.flatMap bitsOf).length = 8 * (2 * ws.length) := by
    rw [length_flatMap_bitsOf]
    omega
  refine blocks_injective length_bitsOf (fun _ _ => bitsOf_injective) (Mem.length_words _ _ _) ?_
  rw [Mem.words_flatMap_bitsOf, Mem.bits_stBits m _ a _ hlen]

/-! ## Reading -/

namespace Disk

/-- `floppy_read` with `SYNC_mfm`, started at position `t`: the memory it leaves, and
the position of the mark.  The read ends `16 * nrWords` bitcells behind that.  The
`WARN_ON` on long flux is left out. -/
def floppyRead (d : Disk) (m : Mem) (p nrWords t : Nat) : Option (Mem × Nat) :=
  (d.findSync t).map fun o => (m.stBits p (d.stream o (16 * nrWords)), o)

/-- The index pulses at positions behind `t₀`, up to `t`. -/
def indexCount (d : Disk) (t₀ t : Nat) : Nat := t / d.size - t₀ / d.size

/-- Every read of `n` words that found a mark is followed by one that starts behind
its end, and not behind the next mark. -/
def Timely (d : Disk) (n : Nat) (resume : Nat → Nat) : Prop :=
  ∀ o, d.SyncAt o → o + 16 * n ≤ resume (o + 16 * n) ∧
    ∀ o', o + 16 * n ≤ o' → o' < resume (o + 16 * n) → ¬ d.SyncAt o'

theorem stream_add (d : Disk) (t j k : Nat) :
    d.stream t (j + k) = d.stream t j ++ d.stream (t + j) k :=
  window_add _ _ _ _ _

theorem take_stream (d : Disk) (t : Nat) {k n : Nat} (h : k ≤ n) :
    (d.stream t n).take k = d.stream t k := by
  rw [← Nat.add_sub_of_le h, stream_add, List.take_left' (length_stream _ _ _)]

theorem drop_stream (d : Disk) (t : Nat) {k n : Nat} (h : k ≤ n) :
    (d.stream t n).drop k = d.stream (t + k) (n - k) := by
  conv => lhs; rw [← Nat.add_sub_of_le h, stream_add]
  rw [List.drop_left' (length_stream _ _ _)]

/-- **Well-timed flux delivers the stream**: where flux intervals show the bitcells
from position `t` on, `floppy_read` locks to the first mark, and delivers the bitcells
from there, as many of its own as `sync_found` says. -/
theorem readCells_stream {d : Disk} {sync : Sync} (hne : sync ≠ .none) {cell : BitVec 16}
    (bcMax : Nat) {gs : List Nat} {cs : List (BitVec 16)}
    (h : List.Forall₂ (Timed cell.toNat) gs cs) (hfit : ∀ g ∈ gs, g * cell.toNat ≤ 65535)
    {t o n : Nat} (hgs : ofGaps gs = d.stream t n) (hle : t ≤ o) (hin : o + 32 ≤ t + n)
    (hshows : sync.Shows (d.stream o 32))
    (hfirst : ∀ o', t ≤ o' → o' < o → ¬ sync.Shows (d.stream o' 32)) :
    readCells sync cell bcMax cs =
      some ((d.stream t n).drop
        (o + 32 - t - sync.found (pushBits (~~~0) (d.stream o 32)))) := by
  have hlast : ∀ k, k + 32 ≤ n → d.stream t (k + 32) = d.stream t k ++ d.stream (t + k) 32 :=
    fun k _ => stream_add d t k 32
  have hmark : (ofGaps gs).take (o + 32 - t) = d.stream t (o - t) ++ d.stream o 32 := by
    rw [hgs, take_stream d t (by omega), show o + 32 - t = o - t + 32 by omega,
      hlast (o - t) (by omega), Nat.add_sub_of_le hle]
  have hwin : pushBits (~~~0 : BitVec 32) ((ofGaps gs).take (o + 32 - t)) =
      pushBits (~~~0) (d.stream o 32) := by
    rw [hmark, pushBits_append,
      pushBits_of_length _ (~~~0) _ (Nat.le_of_eq (length_stream _ _ _).symm)]
  have hlen : (ofGaps gs).length = n := by rw [hgs, length_stream]
  rw [readCells_of_first hne bcMax h hfit (n := o + 32 - t) ?_ (by omega) ?_, hwin, hgs]
  · rw [hmark]
    exact (Sync.shows_append _ (Nat.le_of_eq (length_stream _ _ _).symm)).mpr hshows
  · intro k hk hshows'
    have hlong := hshows'.le_length
    rw [List.length_take] at hlong
    obtain ⟨j, rfl⟩ : ∃ j, k = j + 32 := ⟨k - 32, by omega⟩
    rw [hgs, take_stream d t (by omega), hlast j (by omega),
      Sync.shows_append _ (Nat.le_of_eq (length_stream _ _ _).symm)] at hshows'
    exact hfirst (t + j) (by omega) (by omega) hshows'

theorem syncAt_iff_shows (d : Disk) (o : Nat) : d.SyncAt o ↔ Sync.mfm.Shows (d.stream o 32) := by
  rw [Sync.Shows, found_mfm_iff, SyncAt]
  refine ⟨fun h => h ▸ List.suffix_refl _, fun h => (h.eq_of_length ?_).symm⟩
  rw [length_stream, length_mfmSync]

/-- For MFM the bitcells of the mark are delivered. -/
theorem readCells_eq_stream {d : Disk} {cell : BitVec 16} (bcMax : Nat) {gs : List Nat}
    {cs : List (BitVec 16)} (h : List.Forall₂ (Timed cell.toNat) gs cs)
    (hfit : ∀ g ∈ gs, g * cell.toNat ≤ 65535) {t o n : Nat} (hgs : ofGaps gs = d.stream t n)
    (hsync : d.findSync t = some o) (hin : o + 32 ≤ t + n) :
    readCells .mfm cell bcMax cs = some (d.stream o (t + n - o)) := by
  obtain ⟨hmark, hle, hfirst⟩ := of_find?_ring hsync
  have hfound : Sync.mfm.found (pushBits (~~~0) (d.stream o 32)) = 32 := by
    rw [show d.stream o 32 = mfmSync from hmark, mfmSync, pushBits_bitsOf]
    decide
  rw [readCells_stream (by decide) bcMax h hfit hgs hle hin ((d.syncAt_iff_shows o).mp hmark)
      fun o' hlo hhi => (d.syncAt_iff_shows o').not.mp (hfirst o' hlo hhi),
    hfound, drop_stream d t (by omega)]
  congr 2 <;> omega

namespace Track

variable {d : Disk} {l : List Item} {ws : List (BitVec 16)}

/-- Whole words within the revolution. -/
theorem stream_eq (h : d.Track l ws) {o q : Nat} (ho : o % d.size = 16 * q) : ∀ n,
    16 * (q + n) ≤ d.size → d.stream o (16 * n) = ((ws.drop q).take n).flatMap bitsOf
  | 0, _ => rfl
  | n + 1, hn => by
    have hlen := h.length_eq
    have hle := h.size_le
    have hlast : d.stream (o + 16 * n) 16 = bitsOf ws[q + n] := by
      rw [stream, window, bitsOf, List.map_inj_left]
      intro i hi
      rw [List.mem_range] at hi
      rw [← h.cell hi (by omega) (by omega), Nat.add_assoc, Nat.add_mod, ho]
      congr 1
      rw [Nat.mod_eq_of_lt (a := 16 * n + i) (by omega), Nat.mod_eq_of_lt (by omega)]
      omega
    rw [Nat.mul_succ, stream_add, h.stream_eq ho n (by omega), hlast,
      List.take_add_one, List.getElem?_drop, List.getElem?_eq_getElem (by omega)]
    simp

/-- **A read on a track** fills its buffer with the words from the mark on, and
`mfm_to_bin` turns them into their bytes. -/
theorem floppyRead_spec (h : d.Track l ws) {t o q n : Nat} (m : Mem) (p : Nat)
    (hfind : d.findSync t = some o) (ho : o % d.size = 16 * q) (hn : 16 * (q + n) ≤ d.size) :
    ∃ m', d.floppyRead m p n t = some (m', o) ∧
      m'.words p n = (ws.drop q).take n ∧
      (mfmToBin m' p n).bytes p n = itemBytes ((l.drop q).take n) := by
  have hlen := h.length_eq
  have hle := h.size_le
  have hwlen : ((ws.drop q).take n).length = n := by
    rw [List.length_take, List.length_drop]
    omega
  have hwords : (m.stBits p (d.stream o (16 * n))).words p n = (ws.drop q).take n := by
    have hst := Mem.words_stBits m p ((ws.drop q).take n)
    rw [hwlen, ← h.stream_eq ho n hn] at hst
    exact hst
  refine ⟨_, by rw [floppyRead, hfind]; rfl, hwords, ?_⟩
  obtain ⟨y, hcoded⟩ := h.coded
  rw [mfmToBin_bytes, hwords, itemBytes, List.map_take, List.map_take, List.map_drop, List.map_drop,
    hcoded.decode]
  rfl

end Track

end Disk

/-! ## Searching -/

/-- What a loop that searches for a header leaves: the memory, the end of the read that
found the header, and whether one of its `WARN_ON`s has fired. -/
structure Found where
  mem : Mem
  endPos : Nat
  warned : Bool

/-- A position on a ring is met once in every revolution. -/
theorem exists_next {size a : Nat} (ha : a < size) (t : Nat) :
    ∃ o, t ≤ o ∧ o < t + size ∧ o % size = a := by
  have hlt : t % size < size := Nat.mod_lt _ (by omega)
  rcases Nat.lt_or_ge a (t % size) with hlo | hhi
  · refine ⟨t + (size - t % size + a), by omega, by omega, ?_⟩
    rw [Nat.add_mod, Nat.mod_eq_of_lt (a := size - t % size + a) (by omega),
      show t % size + (size - t % size + a) = size + a by omega, Nat.add_mod_left,
      Nat.mod_eq_of_lt ha]
  · refine ⟨t + (a - t % size), by omega, by omega, ?_⟩
    rw [Nat.add_mod, Nat.mod_eq_of_lt (a := a - t % size) (by omega),
      show t % size + (a - t % size) = a by omega, Nat.mod_eq_of_lt ha]

/-- A search on a ring finds what is there. -/
theorem exists_find?_ring {P : Nat → Prop} [DecidablePred P] {size o : Nat}
    (hmod : ∀ o, P (o % size) ↔ P o) (ho : P o) (hsize : 0 < size) (t : Nat) :
    ∃ o', ((List.range size).map (t + ·)).find? (fun o => decide (P o)) = some o' := by
  obtain ⟨o', hle, hlt, heq⟩ := exists_next (Nat.mod_lt o hsize) t
  refine Option.isSome_iff_exists.mp (List.find?_isSome.mpr ⟨o', ?_, decide_eq_true ?_⟩)
  · exact List.mem_map.mpr ⟨o' - t, List.mem_range.mpr (by omega), by omega⟩
  · rw [← hmod, heq, hmod]
    exact ho

/-- Two positions less than a revolution apart. -/
theorem mod_of_le (size : Nat) {o o' : Nat} (hle : o ≤ o') (hlt : o' < o + size) :
    o' % size = o % size + (o' - o) ∨ o' % size + size = o % size + (o' - o) := by
  have hmod : o % size < size := Nat.mod_lt _ (by omega)
  have heq : o' % size = (o % size + (o' - o)) % size := by
    conv => lhs; rw [show o' = o + (o' - o) by omega, Nat.add_mod]
    rw [Nat.mod_eq_of_lt (a := o' - o) (by omega)]
  rcases Nat.lt_or_ge (o % size + (o' - o)) size with h | h
  · exact .inl (by rw [heq, Nat.mod_eq_of_lt h])
  · refine .inr ?_
    rw [heq, Nat.mod_eq_sub_mod h, Nat.mod_eq_of_lt (by omega)]
    omega

namespace Disk

/-- A read that starts in front of a mark finds one. -/
theorem exists_findSync {d : Disk} {t o : Nat} (hsync : d.SyncAt o) (hle : t ≤ o)
    (hsize : 0 < d.size) : ∃ o', t ≤ o' ∧ o' ≤ o ∧ d.SyncAt o' ∧ d.findSync t = some o' := by
  have hex : ∃ k, d.SyncAt (t + k) := ⟨o - t, by rw [Nat.add_sub_of_le hle]; exact hsync⟩
  have hmin : Nat.find hex ≤ o - t :=
    Nat.find_min' hex (by rw [Nat.add_sub_of_le hle]; exact hsync)
  refine ⟨t + Nat.find hex, Nat.le_add_right _ _, by omega, Nat.find_spec hex,
    findSync_eq (Nat.find_spec hex) (Nat.le_add_right _ _) (fun o' hlo hhi hsync' => ?_) hsize⟩
  refine Nat.find_min hex (m := o' - t) (by omega) ?_
  rw [Nat.add_sub_of_le hlo]
  exact hsync'

theorem le_of_findSync {d : Disk} {t o : Nat} (h : d.findSync t = some o) : t ≤ o :=
  (of_find?_ring h).2.1

theorem syncAt_of_findSync {d : Disk} {t o : Nat} (h : d.findSync t = some o) : d.SyncAt o :=
  (of_find?_ring h).1

/-- A read that is resumed in time starts in front of the next sync mark. -/
theorem resume_le {d : Disk} {n : Nat} {resume : Nat → Nat} (hresume : d.Timely n resume)
    {o o' : Nat} (hsync : d.SyncAt o) (hsync' : d.SyncAt o') (hle : o + 16 * n ≤ o') :
    resume (o + 16 * n) ≤ o' := by
  by_contra hlt
  exact (hresume o hsync).2 o' hle (Nat.lt_of_not_le hlt) hsync'

/-- Fewer than two index pulses pass within a revolution. -/
theorem not_two_indexes {d : Disk} {t₀ t o : Nat} (hle : t ≤ o) (hnear : o < t₀ + d.size) :
    (false || decide (2 ≤ d.indexCount t₀ t)) = false := by
  have hsize : 0 < d.size ∨ d.size = 0 := by omega
  rw [Bool.false_or, decide_eq_false_iff_not, indexCount]
  rcases hsize with hpos | hzero
  · have hdiv : t / d.size ≤ t₀ / d.size + 1 := by
      rw [← Nat.add_div_right _ hpos]
      exact Nat.div_le_div_right (by omega)
    omega
  · rw [hzero, Nat.div_zero, Nat.div_zero]
    decide

/-- **The rule for a search loop**, which reads `n` words at each mark it meets: where it
accepts the mark at `o`, and rejects those in front of it, it ends there. -/
theorem search_rule {d : Disk} {n : Nat} (hn : 0 < n) {resume : Nat → Nat}
    (hresume : d.Timely n resume) {t₀ o : Nat} (hsync : d.SyncAt o)
    (hapart : ∀ o', d.SyncAt o' → o' < o → o' + 16 * n ≤ o)
    (hsize : 0 < d.size) {P : Nat → Nat → Mem → Prop}
    (haccept : ∀ fuel t m, t₀ ≤ t → t ≤ o → d.findSync t = some o → P (fuel + 1) t m)
    (hreject : ∀ fuel t m o', t₀ ≤ t → t ≤ o → d.findSync t = some o' → d.SyncAt o' → o' < o →
      (∀ m', P fuel (resume (o' + 16 * n)) m') → P (fuel + 1) t m) :
    ∀ (fuel t : Nat) (m : Mem), t₀ ≤ t → t ≤ o → o < t + fuel → P fuel t m := by
  intro fuel
  induction fuel with
  | zero => exact fun t m _ hle hlt => absurd hlt (Nat.not_lt_of_le hle)
  | succ fuel ih =>
    intro t m ht₀ hle hlt
    obtain ⟨o', hlo, hhi, hsync', hfind⟩ := exists_findSync hsync hle hsize
    rcases Nat.eq_or_lt_of_le hhi with rfl | hlt'
    · exact haccept fuel t m ht₀ hle hfind
    · have hge := (hresume o' hsync').1
      have hnext := resume_le hresume hsync' hsync (hapart o' hsync' hlt')
      exact hreject fuel t m o' ht₀ hle hfind hsync' hlt' fun m' =>
        ih _ m' (by omega) hnext (by omega)

end Disk

end FlashFloppyTestbed
