/-
  Disk/Revolution.lean --- one revolution of a track, and where it holds the sync
  mark.

  A `Disk` is the ring of bitcells that passes the head, and positions on it are
  counted from some index pulse on, over all revolutions.  `Disk.Track d l ws`
  says that the revolution is made of the words `ws` for the items `l`, the last
  of them cut off anywhere.  The mark `0x44894489` is then found, at any of the
  bit offsets and across the index as well, exactly where two sync items follow
  each other (`Disk.Track.syncAt_iff`).
-/
import FlashFloppyTestbed.Disk.Coding
import FlashFloppyTestbed.Floppy.RoundTrip
import FlashFloppyTestbed.Foundation.Blocks

set_option autoImplicit false

namespace FlashFloppyTestbed

open FlashFloppyTestbed.Foundation FlashFloppyTestbed.Floppy

/-- The bitcells of one revolution; the first is the one at the index pulse. -/
structure Disk where
  cells : Nat → Bool
  size : Nat

/-- `SYNC_mfm`: the word the reader waits for. -/
def syncMark : BitVec 32 := 0x44894489

theorem mfmSync_eq : mfmSync = bitsOf syncMark := rfl

/-- Written at the index, two words cannot complete a mark that begins up to eleven
bitcells before it. -/
def Leads (w₀ w₁ : BitVec 16) : Prop :=
  ∀ k : Fin 12, 0 < k.val →
    ∃ i : Fin 20, (w₀ ++ w₁).getMsbD i ≠ syncMark.getMsbD (k + i)

instance (w₀ w₁ : BitVec 16) : Decidable (Leads w₀ w₁) :=
  inferInstanceAs (Decidable (∀ _ : Fin 12, _))

namespace Disk

/-- `n` bitcells from position `t` on. -/
def stream (d : Disk) (t n : Nat) : List Bool := window d.cells d.size t n

/-- The sync mark begins at a position. -/
def SyncAt (d : Disk) (o : Nat) : Prop := d.stream o 32 = mfmSync

instance (d : Disk) (o : Nat) : Decidable (d.SyncAt o) := inferInstanceAs (Decidable (_ = _))

/-- Where a read that starts at position `t` finds the sync mark; `none` is a read
that never returns. -/
def findSync (d : Disk) (t : Nat) : Option Nat :=
  ((List.range d.size).map (t + ·)).find? fun o => decide (d.SyncAt o)

theorem syncAt_mod (d : Disk) (o : Nat) : d.SyncAt (o % d.size) ↔ d.SyncAt o := by
  rw [SyncAt, SyncAt, stream, stream, window_mod]

theorem syncAt_iff_forall (d : Disk) (o : Nat) :
    d.SyncAt o ↔ ∀ i, i < 32 → d.cells ((o + i) % d.size) = syncMark.getMsbD i := by
  rw [SyncAt, stream, window, mfmSync_eq, bitsOf, List.map_inj_left]
  exact forall_congr' fun i => imp_congr_left List.mem_range

/-- The mark found is the first one at or behind the start of the read. -/
theorem findSync_eq {d : Disk} {t o : Nat} (hsync : d.SyncAt o) (hle : t ≤ o)
    (hfirst : ∀ o', t ≤ o' → o' < o → ¬ d.SyncAt o') (hsize : 0 < d.size) :
    d.findSync t = some o :=
  find?_ring_eq d.syncAt_mod hsync hle hfirst hsize

theorem findSync_self {d : Disk} {o : Nat} (hsync : d.SyncAt o) (hsize : 0 < d.size) :
    d.findSync o = some o :=
  findSync_eq hsync (Nat.le_refl o) (fun _ hle hlt _ => absurd hlt (Nat.not_lt_of_le hle)) hsize

end Disk

/-! ## A revolution from its bitcells -/

theorem length_flatMap_bitsOf {w : Nat} (ws : List (BitVec w)) :
    (ws.flatMap bitsOf).length = w * ws.length :=
  length_blocks length_bitsOf ws

/-- A bitcell of some words. -/
theorem getElem?_flatMap_bitsOf (ws : List (BitVec 16)) (r : Nat) (h : r / 16 < ws.length) :
    (ws.flatMap bitsOf)[r]? = some ((ws[r / 16]).getMsbD (r % 16)) := by
  have hr : r % 16 < 16 := Nat.mod_lt _ (by decide)
  have hblock := getElem?_blocks length_bitsOf h hr
  rw [Nat.div_add_mod] at hblock
  rw [hblock, List.getElem?_eq_getElem (by rw [length_bitsOf]; exact hr), getElem_bitsOf]

namespace Disk

/-- A revolution with the given bitcells. -/
def ofBits (l : List Bool) : Disk := ⟨fun r => l.getD r false, l.length⟩

theorem length_stream (d : Disk) (t n : Nat) : (d.stream t n).length = n := length_window _ _ _ _

theorem stream_ofBits {l : List Bool} {o n : Nat} (h : o + n ≤ l.length) :
    (ofBits l).stream o n = (l.drop o).take n := by
  apply List.ext_getElem
  · rw [length_stream, List.length_take, List.length_drop]
    omega
  · intro i h₁ h₂
    rw [length_stream] at h₁
    have hin : i < ((ofBits l).stream o n).length := by rwa [length_stream]
    have hget : ((ofBits l).stream o n)[i] = l.getD ((o + i) % l.length) false :=
      getElem_window _ _ _ _ _ _
    rw [hget, Nat.mod_eq_of_lt (by omega), List.getElem_take, List.getElem_drop,
      List.getD_eq_getElem?_getD, List.getElem?_eq_getElem (by omega), Option.getD_some]

end Disk

/-! ## Where a track holds the mark -/

namespace Disk

/-- The revolution is made of the words `ws` for the items `l`, of which the last may
be cut off; the words at its two ends are code words that cannot take part in a
mark across the index. -/
structure Track (d : Disk) (l : List Item) (ws : List (BitVec 16)) : Prop where
  coded : ∃ y, Coded y l ws
  size_ge : 64 ≤ d.size
  size_le : d.size ≤ 16 * l.length
  cells : ∀ r, r < d.size → ∀ h : r / 16 < ws.length, d.cells r = (ws[r / 16]).getMsbD (r % 16)
  seams : ∀ it ∈ l, it.tag = .seam → it.byte = 0x00 ∨ it.byte = 0x4e
  afterSync : ∀ q, ∀ h : q + 1 < l.length, (l[q]).tag = .sync → (l[q + 1]).byte ≠ 0x41
  tail : ∀ q, ∀ h : q < l.length, d.size < 16 * q + 48 → (l[q]).tag = .coded
  lead : ∀ h : 1 < ws.length, Leads ws[0] ws[1]

namespace Track

variable {d : Disk} {l : List Item} {ws : List (BitVec 16)}

theorem length_eq (h : d.Track l ws) : ws.length = l.length := by
  obtain ⟨y, hcoded⟩ := h.coded
  exact hcoded.length_eq

/-- A bitcell, by its word. -/
theorem cell (h : d.Track l ws) {q j : Nat} (hj : j < 16) (hlt : 16 * q + j < d.size)
    (hq : q < ws.length) : d.cells (16 * q + j) = (ws[q]).getMsbD j := by
  have hdiv : (16 * q + j) / 16 = q := by omega
  have hmod : (16 * q + j) % 16 = j := by omega
  have hcell := h.cells (16 * q + j) hlt (by omega)
  simp only [hdiv, hmod] at hcell
  exact hcell

/-- Three clear bitcells around a clock position: only in a sync word, or in front of
a seam. -/
theorem missing (h : d.Track l ws) {c : Nat} (hpos : 0 < c) (heven : c % 2 = 0)
    (hlt : c + 1 < d.size) (hbefore : d.cells (c - 1) = false) (hclock : d.cells c = false)
    (hdata : d.cells (c + 1) = false) :
    ∃ hq : c / 16 < l.length, (l[c / 16]).tag = .sync ∧ c % 16 = 10 ∨
      (l[c / 16]).tag = .seam ∧ c % 16 = 0 := by
  have hlen := h.length_eq
  have hle := h.size_le
  obtain ⟨y, hcoded⟩ := h.coded
  obtain ⟨q, k, hk, rfl⟩ : ∃ q k, k < 8 ∧ c = 16 * q + 2 * k :=
    ⟨c / 16, c % 16 / 2, by omega, by omega⟩
  have hq : (16 * q + 2 * k) / 16 = q := by omega
  have hmod : (16 * q + 2 * k) % 16 = 2 * k := by omega
  have hql : q < l.length := by omega
  refine ⟨by omega, ?_⟩
  simp only [hq, hmod]
  rw [h.cell (by omega) (by omega) (by omega)] at hclock
  rw [Nat.add_assoc, h.cell (by omega) (by omega) (by omega)] at hdata
  by_cases hk0 : k = 0
  · -- at the beginning of a word, behind the last bit of the one before it
    subst hk0
    obtain ⟨q, rfl⟩ : ∃ q', q = q' + 1 := ⟨q - 1, by omega⟩
    have hword := hcoded.wordOk_succ hql (by omega)
    rw [show 16 * (q + 1) + 2 * 0 - 1 = 16 * q + 15 by omega,
      h.cell (by omega) (by omega) (by omega)] at hbefore
    have hlsb : (ws[q]).getLsbD 0 = false := by
      rw [BitVec.getMsbD_eq_getLsbD] at hbefore
      simpa using hbefore
    rw [hlsb] at hword
    exact .inr ⟨hword.missing_first hclock hdata, rfl⟩
  · have hword := hcoded.wordOk hql (by omega)
    rw [show 16 * q + 2 * k - 1 = 16 * q + (2 * k - 1) by omega,
      h.cell (by omega) (by omega) (by omega)] at hbefore
    obtain ⟨htag, rfl⟩ := hword.missing_clock (by omega) hk hbefore hclock hdata
    exact .inl ⟨htag, rfl⟩

/-- A word that lies within a mark has the mark's bits for its data. -/
theorem byte_of_mark (h : d.Track l ws) {o s q : Nat} (hs : s + 16 ≤ 32) (hq : 16 * q = o + s)
    (hlt : o + s + 16 ≤ d.size)
    (hmark : ∀ i, i < 32 → o + i < d.size → d.cells (o + i) = syncMark.getMsbD i)
    (hql : q < l.length) :
    ∀ k, k < 8 → (l[q]).byte.getMsbD k = syncMark.getMsbD (s + 2 * k + 1) := by
  intro k hk
  have hlen := h.length_eq
  obtain ⟨y, hcoded⟩ := h.coded
  have hword := hcoded.wordOk hql (by omega)
  rw [← hword.data hk, ← h.cell (by omega) (by omega) (by omega),
    show 16 * q + (2 * k + 1) = o + (s + 2 * k + 1) by omega]
  exact hmark _ (by omega) (by omega)

/-- Within the revolution, a mark is two sync words. -/
theorem sync_of_mark (h : d.Track l ws) {o : Nat} (hin : o + 32 ≤ d.size)
    (hmark : ∀ i, i < 32 → o + i < d.size → d.cells (o + i) = syncMark.getMsbD i) :
    ∃ q, o = 16 * q ∧ ∃ hq : q + 1 < l.length, (l[q]).tag = .sync ∧ (l[q + 1]).tag = .sync := by
  have hle := h.size_le
  have hzero : ∀ c, c < 32 → syncMark.getMsbD c = false → d.cells (o + c) = false :=
    fun c hc hbit => (hmark c hc (by omega)).trans hbit
  rcases Nat.mod_two_eq_zero_or_one o with heven | hodd
  · -- the clock bits are at the even offsets: the mark lacks those at 10 and 26
    obtain ⟨hq₁, h₁⟩ := h.missing (c := o + 10) (by omega) (by omega) (by omega)
      (hzero 9 (by decide) (by decide)) (hzero 10 (by decide) (by decide))
      (hzero 11 (by decide) (by decide))
    rcases h₁ with ⟨hsync, hmod⟩ | ⟨hseam, hmod⟩
    · obtain ⟨q, rfl⟩ : ∃ q, o = 16 * q := ⟨o / 16, by omega⟩
      have hdiv : (16 * q + 10) / 16 = q := by omega
      simp only [hdiv] at hsync
      obtain ⟨hq₂, h₂⟩ := h.missing (c := 16 * q + 26) (by omega) (by omega) (by omega)
        (hzero 25 (by decide) (by decide)) (hzero 26 (by decide) (by decide))
        (hzero 27 (by decide) (by decide))
      have hdiv' : (16 * q + 26) / 16 = q + 1 := by omega
      simp only [hdiv'] at h₂ hq₂
      refine ⟨q, rfl, hq₂, hsync, ?_⟩
      rcases h₂ with ⟨hsync', _⟩ | ⟨_, hmod'⟩
      · exact hsync'
      · omega
    · -- the byte behind a seam would have to be 0x34
      exfalso
      have hbyte := h.byte_of_mark (s := 10) (q := (o + 10) / 16) (by decide) (by omega)
        (by omega) hmark hq₁
      rcases h.seams _ (List.getElem_mem hq₁) hseam with hb | hb <;> rw [hb] at hbyte
      · exact absurd (hbyte 2 (by decide)) (by decide)
      · exact absurd (hbyte 1 (by decide)) (by decide)
  · -- the clock bits are at the odd offsets: the mark lacks those at 3 and 19
    exfalso
    obtain ⟨hq₁, h₁⟩ := h.missing (c := o + 3) (by omega) (by omega) (by omega)
      (hzero 2 (by decide) (by decide)) (hzero 3 (by decide) (by decide))
      (hzero 4 (by decide) (by decide))
    rcases h₁ with ⟨hsync, hmod⟩ | ⟨hseam, hmod⟩
    · -- the byte behind the sync word would have to be 0x41
      have hq₂ : (o + 3) / 16 + 1 < l.length := by omega
      refine h.afterSync _ hq₂ hsync (BitVec.eq_of_getMsbD_eq fun k hk => ?_)
      rw [h.byte_of_mark (o := o) (s := 9) (by decide) (by omega) (by omega) hmark hq₂ k hk]
      interval_cases k <;> decide
    · -- the byte behind a seam would have to be 0x28
      have hbyte := h.byte_of_mark (s := 3) (q := (o + 3) / 16) (by decide) (by omega)
        (by omega) hmark hq₁
      rcases h.seams _ (List.getElem_mem hq₁) hseam with hb | hb <;> rw [hb] at hbyte
      · exact absurd (hbyte 2 (by decide)) (by decide)
      · exact absurd (hbyte 1 (by decide)) (by decide)

/-- No mark lies across the index. -/
theorem no_mark_across (h : d.Track l ws) {o : Nat} (hlt : o < d.size) (hacross : d.size < o + 32)
    (hmark : ∀ i, i < 32 → o + i < d.size → d.cells (o + i) = syncMark.getMsbD i)
    (hnext : ∀ i, i < 32 → d.size ≤ o + i → d.cells (o + i - d.size) = syncMark.getMsbD i) :
    False := by
  have hlen := h.length_eq
  have hge := h.size_ge
  have hle := h.size_le
  by_cases hlong : o + 12 ≤ d.size
  · -- enough of it lies at the end of the revolution to miss a clock bit there
    have hzero : ∀ c, c < 12 → syncMark.getMsbD c = false → d.cells (o + c) = false :=
      fun c hc hbit => (hmark c (by omega) (by omega)).trans hbit
    have hcoded : ∀ c, o ≤ c → ∀ hq : c / 16 < l.length,
        ¬ ((l[c / 16]).tag = .sync ∧ c % 16 = 10 ∨ (l[c / 16]).tag = .seam ∧ c % 16 = 0) := by
      intro c hc hq hor
      have htag := h.tail (c / 16) hq (by omega)
      rw [htag] at hor
      rcases hor with hor | hor <;> cases hor.1
    rcases Nat.mod_two_eq_zero_or_one o with heven | hodd
    · obtain ⟨hq, hor⟩ := h.missing (c := o + 10) (by omega) (by omega) (by omega)
        (hzero 9 (by decide) (by decide)) (hzero 10 (by decide) (by decide))
        (hzero 11 (by decide) (by decide))
      exact hcoded _ (by omega) hq hor
    · obtain ⟨hq, hor⟩ := h.missing (c := o + 3) (by omega) (by omega) (by omega)
        (hzero 2 (by decide) (by decide)) (hzero 3 (by decide) (by decide))
        (hzero 4 (by decide) (by decide))
      exact hcoded _ (by omega) hq hor
  · -- the rest of it would have to be the first two words
    obtain ⟨i, hne⟩ := h.lead (by omega) ⟨d.size - o, by omega⟩ (by simp; omega)
    refine hne ?_
    have hi := i.isLt
    have hbit := hnext (d.size - o + i) (by omega) (by omega)
    rw [show o + (d.size - o + i) - d.size = i by omega] at hbit
    rw [← hbit, BitVec.getMsbD_append]
    by_cases hfirst : i.val < 16
    · have hcell := h.cell (q := 0) hfirst (by omega) (by omega)
      rw [if_neg (by omega), ← hcell]
      congr 1
      omega
    · have hcell := h.cell (q := 1) (j := i - 16) (by omega) (by omega) (by omega)
      rw [if_pos (by omega), ← hcell]
      congr 1
      omega

/-- **Sync uniqueness**: on a track the mark is found at two consecutive sync words
and nowhere else. -/
theorem syncAt_iff (h : d.Track l ws) (o : Nat) :
    d.SyncAt o ↔ ∃ q, o % d.size = 16 * q ∧
      ∃ hq : q + 1 < l.length, (l[q]).tag = .sync ∧ (l[q + 1]).tag = .sync := by
  have hlen := h.length_eq
  have hge := h.size_ge
  rw [← Disk.syncAt_mod, Disk.syncAt_iff_forall]
  have hlt : o % d.size < d.size := Nat.mod_lt _ (by omega)
  obtain ⟨r, hr⟩ : ∃ r, r = o % d.size := ⟨_, rfl⟩
  rw [← hr] at hlt ⊢
  constructor
  · intro hbits
    have hmark : ∀ i, i < 32 → r + i < d.size → d.cells (r + i) = syncMark.getMsbD i := by
      intro i hi hin
      rw [← hbits i hi, Nat.mod_eq_of_lt hin]
    by_cases hin : r + 32 ≤ d.size
    · exact h.sync_of_mark hin hmark
    · refine (h.no_mark_across hlt (by omega) hmark fun i hi hge => ?_).elim
      rw [← hbits i hi, Nat.mod_eq_sub_mod hge, Nat.mod_eq_of_lt (by omega)]
  · rintro ⟨q, rfl, hq, hsync, hsync'⟩ i hi
    have hin : 16 * q + 64 ≤ d.size := by
      by_contra hlt'
      have htag := h.tail (q + 1) hq (by omega)
      rw [htag] at hsync'
      cases hsync'
    obtain ⟨y, hcoded⟩ := h.coded
    have hw : ws[q] = syncWord := (hcoded.wordOk (by omega) (by omega)).eq_syncWord_iff.mpr hsync
    have hw' : ws[q + 1] = syncWord := (hcoded.wordOk hq (by omega)).eq_syncWord_iff.mpr hsync'
    have htwo : syncMark = syncWord ++ syncWord := rfl
    rw [Nat.mod_eq_of_lt (by omega), htwo, BitVec.getMsbD_append]
    by_cases hfirst : i < 16
    · rw [if_neg (by omega), h.cell hfirst (by omega) (by omega), hw]
    · rw [if_pos (by omega), show 16 * q + i = 16 * (q + 1) + (i - 16) by omega,
        h.cell (by omega) (by omega) (by omega), hw']

end Track

end Disk

end FlashFloppyTestbed
