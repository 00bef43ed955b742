/-
  Disk/Interleave.lean --- the headers that a test of `src/main.c` puts on a track,
  in interleaved order: `mk_ibm_idams`.

  The table is an array that the code indexes with `unsigned int`; `fuel` bounds
  the tests of one search for a free entry.  An entry is free as long as its `r`
  is the 0xff of the `memset`, which no header of the track has for its `r`
  (`Laid.taken_iff`).
-/
import FlashFloppyTestbed.Disk.Ibm
import FlashFloppyTestbed.Foundation.Placement

set_option autoImplicit false

namespace FlashFloppyTestbed

open FlashFloppyTestbed.Foundation FlashFloppyTestbed.Floppy

/-! ## The table -/

/-- The search for a free entry, from `pos` on. -/
def probeFree (nr : Nat) (idam : Nat → Idam) : Nat → Nat → Option Nat
  | 0, _ => none
  | fuel + 1, pos =>
    if (idam pos).r ≠ 0xff then probeFree nr idam fuel ((pos + 1) % 2 ^ 32 % nr) else some pos

/-- The loop over the sectors, of which `k` are left and `i` are done. -/
def placeIdams (fuel nr interleave : Nat) (i0 : Idam) :
    Nat → Nat → Nat → (Nat → Idam) → Option (Nat → Idam)
  | 0, _, _, idam => some idam
  | k + 1, i, pos, idam =>
    (probeFree nr idam fuel pos).bind fun pos =>
      placeIdams fuel nr interleave i0 k (i + 1) ((pos + interleave) % 2 ^ 32 % nr)
        (Function.update idam pos { i0 with r := BitVec.ofNat 8 (i + i0.r.toNat) })

/-- `memset(idam, 0xff, nr * sizeof(*idam))`, for an array that fits in memory. -/
def blankIdams (idam : Nat → Idam) (nr : Nat) : Nat → Idam :=
  fun s => if s < nr then ⟨0xff, 0xff, 0xff, 0xff⟩ else idam s

/-- `mk_ibm_idams`. -/
def mkIbmIdams (fuel : Nat) (idam : Nat → Idam) (nr interleave cskew hskew : Nat) :
    Option (Nat → Idam) :=
  placeIdams fuel nr interleave (idam 0) nr 0
    (((idam 0).c.toNat * cskew % 2 ^ 32 + (idam 0).h.toNat * hskew % 2 ^ 32) % 2 ^ 32 % nr)
    (blankIdams idam nr)

/-! ## One search -/

/-- A search that has to pass `k` taken entries takes `k + 1` tests. -/
theorem probeFree_eq {nr pos k fuel : Nat} {idam : Nat → Idam} (hnr : nr < 2 ^ 32) (hpos : pos < nr)
    (hfuel : k < fuel) (hfree : (idam ((pos + k) % nr)).r = 0xff)
    (htaken : ∀ j, j < k → (idam ((pos + j) % nr)).r ≠ 0xff) :
    probeFree nr idam fuel pos = some ((pos + k) % nr) := by
  induction k generalizing pos fuel with
  | zero =>
    obtain ⟨fuel, rfl⟩ : ∃ f, fuel = f + 1 := ⟨fuel - 1, by omega⟩
    have hhere : (pos + 0) % nr = pos := Nat.mod_eq_of_lt hpos
    rw [hhere] at hfree ⊢
    rw [probeFree, if_neg (not_not.mpr hfree)]
  | succ k ih =>
    obtain ⟨fuel, rfl⟩ : ∃ f, fuel = f + 1 := ⟨fuel - 1, by omega⟩
    have hnext : ∀ j, ((pos + 1) % nr + j) % nr = (pos + (j + 1)) % nr := by
      intro j
      rw [Nat.mod_add_mod]
      congr 1
      omega
    have hhere := htaken 0 k.succ_pos
    rw [Nat.add_zero, Nat.mod_eq_of_lt hpos] at hhere
    rw [probeFree, if_pos hhere, Nat.mod_eq_of_lt (show pos + 1 < 2 ^ 32 by omega), ← hnext k]
    refine ih (Nat.mod_lt _ (by omega)) (by omega) ?_ fun j hj => ?_
    · rw [hnext]
      exact hfree
    · rw [hnext]
      exact htaken (j + 1) (by omega)

/-- A search with `nr` tests finds the first free entry, if there is one. -/
theorem probeFree_of_firstFree {nr pos s fuel : Nat} {idam : Nat → Idam} (hnr : nr < 2 ^ 32)
    (hpos : pos < nr) (hfuel : nr ≤ fuel) (h : FirstFree nr (fun s => (idam s).r ≠ 0xff) pos s) :
    probeFree nr idam fuel pos = some s := by
  obtain ⟨k, hk, rfl, hfree, htaken⟩ := h
  exact probeFree_eq hnr hpos (hk.trans_le hfuel) (not_not.mp hfree) htaken

/-! ## The loop over the sectors -/

/-- Header `i` of the track. -/
def trackIdam (i0 : Idam) (i : Nat) : Idam := { i0 with r := BitVec.ofNat 8 (i + i0.r.toNat) }

/-- The table with the first `i` headers on their slots. -/
structure Laid (idam : Nat → Idam) (nr interleave start i : Nat) (slot : Nat → Nat)
    (t : Nat → Idam) : Prop where
  placed : Placed nr interleave start i slot
  header : ∀ j, j < i → t (slot j) = trackIdam (idam 0) j
  blank : ∀ s, s < nr → (∀ j, j < i → slot j ≠ s) → (t s).r = 0xff
  beyond : ∀ s, nr ≤ s → t s = idam s

section Laying

variable {idam t : Nat → Idam} {nr interleave start i : Nat} {slot : Nat → Nat}

theorem toNat_trackIdam_r {i0 : Idam} (hr : i0.r.toNat + nr ≤ 255) (hi : i < nr) :
    (trackIdam i0 i).r.toNat = i0.r.toNat + i := by
  rw [trackIdam, BitVec.toNat_ofNat, Nat.mod_eq_of_lt (by omega), Nat.add_comm]

namespace Laid

/-- The sentinel tells the taken entries from the free ones. -/
theorem taken_iff (h : Laid idam nr interleave start i slot t) (hr : (idam 0).r.toNat + nr ≤ 255)
    (hi : i ≤ nr) {s : Nat} (hs : s < nr) : (∃ j, j < i ∧ slot j = s) ↔ (t s).r ≠ 0xff := by
  constructor
  · rintro ⟨j, hj, rfl⟩ hsentinel
    have hval := toNat_trackIdam_r (i := j) hr (by omega)
    rw [← h.header j hj, hsentinel] at hval
    simp at hval
    omega
  · intro hne
    by_contra hfree
    exact hne (h.blank s hs fun j hj heq => hfree ⟨j, hj, heq⟩)

/-- The `memset` leaves all entries free. -/
theorem start_of (idam : Nat → Idam) (nr interleave start : Nat) (slot : Nat → Nat) :
    Laid idam nr interleave start 0 slot (blankIdams idam nr) where
  placed := fun i hi => absurd hi (Nat.not_lt_zero i)
  header := fun j hj => absurd hj (Nat.not_lt_zero j)
  blank := fun s hs _ => by rw [blankIdams, if_pos hs]
  beyond := fun s hs => by rw [blankIdams, if_neg (Nat.not_lt.mpr hs)]

/-- One turn of the loop. -/
theorem step (h : Laid idam nr interleave start i slot t) {s : Nat}
    (hs : FirstFree nr (fun s => ∃ j, j < i ∧ slot j = s) (wanted interleave start slot i) s) :
    Laid idam nr interleave start (i + 1) (Function.update slot i s)
      (Function.update t s (trackIdam (idam 0) i)) := by
  have hold : ∀ j, j < i → Function.update slot i s j = slot j :=
    fun j hj => Function.update_of_ne hj.ne _ _
  have hnew : ∀ j, j < i → slot j ≠ s := fun j hj heq => hs.free ⟨j, hj, heq⟩
  constructor
  · exact h.placed.extend hs
  · intro j hj
    rcases Nat.lt_succ_iff_lt_or_eq.mp hj with hlt | rfl
    · rw [hold j hlt, Function.update_of_ne (hnew j hlt), h.header j hlt]
    · rw [Function.update_self, Function.update_self]
  · intro s' hs' hfree
    have hne : s' ≠ s := by
      have := hfree i (Nat.lt_succ_self i)
      rw [Function.update_self] at this
      exact this.symm
    rw [Function.update_of_ne hne]
    refine h.blank s' hs' fun j hj => ?_
    rw [← hold j hj]
    exact hfree j (by omega)
  · intro s' hs'
    have hlt := hs.lt
    rw [Function.update_of_ne (by omega), h.beyond s' hs']

end Laid

/-- The loop puts all the headers that are left on their slots. -/
theorem placeIdams_spec (hr : (idam 0).r.toNat + nr ≤ 255) (hint : nr + interleave < 2 ^ 32)
    {k pos : Nat} (hk : i + k = nr) (hlaid : Laid idam nr interleave start i slot t)
    (hpos : pos = wanted interleave start slot i % nr) :
    ∃ slot' t', Laid idam nr interleave start nr slot' t' ∧
      ∀ fuel, nr ≤ fuel → placeIdams fuel nr interleave (idam 0) k i pos t = some t' := by
  induction k generalizing i slot t pos with
  | zero =>
    obtain rfl : i = nr := hk
    exact ⟨slot, t, hlaid, fun _ _ => rfl⟩
  | succ k ih =>
    obtain ⟨s, hs⟩ :=
      Placed.exists_next (show i < nr by omega) slot (wanted interleave start slot i)
    have hprobe : ∀ fuel, nr ≤ fuel → probeFree nr t fuel pos = some s := by
      intro fuel hfuel
      have hfree := hs.congr fun s hs => hlaid.taken_iff hr (by omega) hs
      subst hpos
      exact probeFree_of_firstFree (by omega) (Nat.mod_lt _ (by omega)) hfuel hfree.of_mod
    have hnext : (s + interleave) % 2 ^ 32 % nr =
        wanted interleave start (Function.update slot i s) (i + 1) % nr := by
      have hlt := hs.lt
      rw [wanted, Function.update_self, Nat.mod_eq_of_lt (show s + interleave < 2 ^ 32 by omega)]
    obtain ⟨slot', t', hlaid', hloop⟩ := ih (by omega) (hlaid.step hs) hnext
    refine ⟨slot', t', hlaid', fun fuel hfuel => ?_⟩
    rw [placeIdams, hprobe fuel hfuel]
    exact hloop fuel hfuel

end Laying

/-! ## The whole table -/

/-- The slot that the first header is wanted at. -/
def firstSlot (i0 : Idam) (nr cskew hskew : Nat) : Nat :=
  (i0.c.toNat * cskew + i0.h.toNat * hskew) % nr

section Table

variable {idam : Nat → Idam} {nr interleave cskew hskew : Nat}

theorem mkIbmIdams_spec (hr : (idam 0).r.toNat + nr ≤ 255) (hint : nr + interleave < 2 ^ 32)
    (hstart : (idam 0).c.toNat * cskew + (idam 0).h.toNat * hskew < 2 ^ 32) :
    ∃ slot t, Laid idam nr interleave (firstSlot (idam 0) nr cskew hskew) nr slot t ∧
      ∀ fuel, nr ≤ fuel → mkIbmIdams fuel idam nr interleave cskew hskew = some t := by
  have hpos : ((idam 0).c.toNat * cskew % 2 ^ 32 + (idam 0).h.toNat * hskew % 2 ^ 32) % 2 ^ 32 % nr
      = wanted interleave (firstSlot (idam 0) nr cskew hskew) id 0 % nr := by
    rw [wanted, firstSlot, Nat.mod_mod, ← Nat.add_mod, Nat.mod_eq_of_lt hstart]
  exact placeIdams_spec hr hint (Nat.zero_add nr)
    (Laid.start_of idam nr interleave (firstSlot (idam 0) nr cskew hskew) id) hpos

/-- Every header has one entry, and every entry a header. -/
theorem Laid.existsUnique_header {start : Nat} {slot : Nat → Nat} {t : Nat → Idam}
    (h : Laid idam nr interleave start nr slot t) (hr : (idam 0).r.toNat + nr ≤ 255) {i : Nat}
    (hi : i < nr) : ∃! s, s < nr ∧ (t s).r.toNat = (idam 0).r.toNat + i := by
  refine ⟨slot i, ⟨h.placed.lt hi, ?_⟩, ?_⟩
  · rw [h.header i hi, toNat_trackIdam_r hr hi]
  · rintro s ⟨hs, hval⟩
    obtain ⟨j, ⟨hj, rfl⟩, -⟩ := h.placed.existsUnique hs
    rw [h.header j hj, toNat_trackIdam_r hr hj] at hval
    obtain rfl : j = i := by omega
    rfl

/-- The table is a placement of all the headers. -/
theorem mkIbmIdams_places (hnr : 1 ≤ nr) (hr : (idam 0).r.toNat + nr - 1 ≤ 254)
    (hint : nr + interleave < 2 ^ 32)
    (hstart : (idam 0).c.toNat * cskew + (idam 0).h.toNat * hskew < 2 ^ 32) :
    ∃ (t : Nat → Idam) (slot : Nat → Nat),
      (∀ fuel, nr ≤ fuel → mkIbmIdams fuel idam nr interleave cskew hskew = some t) ∧
      (∀ i, i < nr → ∃! s, s < nr ∧ (t s).r.toNat = (idam 0).r.toNat + i) ∧
      (∀ s, s < nr → ∃ i, i < nr ∧ t s = trackIdam (idam 0) i) ∧
      (∀ s, nr ≤ s → t s = idam s) ∧
      (∀ i, i < nr → slot i < nr ∧ t (slot i) = trackIdam (idam 0) i) ∧
      FirstFree nr (fun _ => False)
        (((idam 0).c.toNat * cskew + (idam 0).h.toNat * hskew) % nr) (slot 0) ∧
      (∀ i, i + 1 < nr → FirstFree nr (fun s => ∃ j, j ≤ i ∧ slot j = s)
        ((slot i + interleave) % nr) (slot (i + 1))) ∧
      (interleave.gcd nr = 1 → ∀ i, i < nr → slot i =
        ((idam 0).c.toNat * cskew + (idam 0).h.toNat * hskew + i * interleave) % nr) := by
  obtain ⟨slot, t, hlaid, hrun⟩ :=
    mkIbmIdams_spec (show (idam 0).r.toNat + nr ≤ 255 by omega) hint hstart
  refine ⟨t, slot, hrun, fun i hi => hlaid.existsUnique_header (by omega) hi, fun s hs => ?_,
    hlaid.beyond, fun i hi => ⟨hlaid.placed.lt hi, hlaid.header i hi⟩, ?_, fun i hi => ?_,
    fun hgcd i hi => ?_⟩
  · obtain ⟨i, ⟨hi, rfl⟩, -⟩ := hlaid.placed.existsUnique hs
    exact ⟨i, hi, hlaid.header i hi⟩
  · exact (hlaid.placed 0 hnr).congr fun s _ => by simp
  · exact (hlaid.placed (i + 1) hi).of_mod.congr fun s _ => by simp only [Nat.lt_succ_iff]
  · rw [hlaid.placed.eq_of_coprime le_rfl hgcd hi, firstSlot, Nat.mod_add_mod]

/-- Ten sectors, interleaved by four, with a skew. -/
theorem mkIbmIdams_places_ten :
    (1 ≤ 10 ∧ 4 + 10 - 1 ≤ 254 ∧ 10 + 4 < 2 ^ 32 ∧ 7 * 3 + 1 * 5 < 2 ^ 32) ∧
      ∃ t, mkIbmIdams 10 (fun _ => ⟨7, 1, 4, 2⟩) 10 4 3 5 = some t ∧
        ∀ s, 10 ≤ s → t s = ⟨7, 1, 4, 2⟩ := by
  obtain ⟨t, -, hrun, -, -, hbeyond, -⟩ :=
    @mkIbmIdams_places (fun _ => ⟨7, 1, 4, 2⟩) 10 4 3 5 (by decide) (by decide) (by decide)
      (by decide)
  exact ⟨by decide, t, hrun 10 le_rfl, hbeyond⟩

/-- The tables that `mfm_rw_sector` checks a track against: in order from `base` on. -/
theorem mkIbmIdams_sequential (hr : (idam 0).r.toNat + nr ≤ 255) :
    ∃ t, (∀ fuel, nr ≤ fuel → mkIbmIdams fuel idam nr 1 0 0 = some t) ∧
      ∀ i, i < nr → t i = trackIdam (idam 0) i := by
  obtain ⟨slot, t, hlaid, hrun⟩ := @mkIbmIdams_spec idam nr 1 0 0 hr (by omega) (by simp)
  refine ⟨t, hrun, fun i hi => ?_⟩
  have hslot := hlaid.placed.eq_of_coprime le_rfl (Nat.coprime_one_left nr) hi
  rw [firstSlot, Nat.mul_zero, Nat.mul_zero, Nat.add_zero, Nat.zero_mod, Nat.zero_add,
    Nat.mul_one, Nat.mod_eq_of_lt hi] at hslot
  rw [← hlaid.header i hi, hslot]

end Table

end FlashFloppyTestbed
