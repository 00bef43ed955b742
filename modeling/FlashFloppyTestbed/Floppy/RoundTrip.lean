/-
  Floppy/RoundTrip.lean --- what `_wdata_bc_to_flux` writes, `floppy_read` reads.

  On the wire a bitcell buffer is the list of gaps between its set bits.  The
  write path turns a gap of `g` cells into the reload value `g * cell - 1`
  (`emit_fluxStep_gaps`), and both quantisers of the read path turn a captured
  interval that is within half a cell of `g * cell` back into `g` bitcells
  (`Timed.waitNr`, `Timed.intervalCells`).  A reader that is shown the flux of a
  buffer therefore locks where the buffer first spells the sync mark, and
  delivers the buffer from there on.
-/
import FlashFloppyTestbed.Floppy.Polling
import FlashFloppyTestbed.Floppy.WriteRing
import FlashFloppyTestbed.Foundation.Gaps
import FlashFloppyTestbed.Foundation.Search

set_option autoImplicit false

namespace FlashFloppyTestbed.Floppy

open FlashFloppyTestbed.Foundation

/-! ## From gaps to reload values -/

/-- The `ARR` value for a gap. -/
def gapArr (cell g : Nat) : BitVec 16 := BitVec.ofNat 16 (g * cell) - 1

/-- One bitcell more on the accumulator, in 1/16 ticks. -/
theorem ticks_succ (tpc : BitVec 32) (n : Nat) :
    BitVec.ofNat 32 (n * (16 * tpc.toNat)) + tpc <<< 4 =
      BitVec.ofNat 32 ((n + 1) * (16 * tpc.toNat)) := by
  have hcell : tpc <<< 4 = BitVec.ofNat 32 (16 * tpc.toNat) := by
    apply BitVec.eq_of_toNat_eq
    rw [BitVec.toNat_shiftLeft, Nat.shiftLeft_eq, BitVec.toNat_ofNat, Nat.mul_comm]
  rw [hcell, ← BitVec.ofNat_add, Nat.add_mul n 1, Nat.one_mul]

/-- The set bit behind `n` clear bitcells: its sample, and no ticks left over. -/
theorem fluxStep_gap {tpc : BitVec 32} {n : Nat} (hfit : (n + 1) * tpc.toNat ≤ 65536) :
    fluxStep (tpc <<< 4) (BitVec.ofNat 32 (n * (16 * tpc.toNat))) true =
      (0, some (gapArr tpc.toNat (n + 1))) := by
  have hmul : (n + 1) * (16 * tpc.toNat) = 16 * ((n + 1) * tpc.toNat) := Nat.mul_left_comm ..
  rw [fluxStep_true, ticks_succ, hmul]
  rw [gapArr]
  generalize (n + 1) * tpc.toNat = x at hfit ⊢
  refine Prod.ext ?_ (congrArg some ?_)
  · apply BitVec.eq_of_toNat_eq
    have h15 : (15 : BitVec 32).toNat = 2 ^ 4 - 1 := rfl
    have h0 : (0 : BitVec 32).toNat = 0 := rfl
    rw [BitVec.toNat_and, h15, Nat.and_two_pow_sub_one_eq_mod, BitVec.toNat_ofNat, h0]
    omega
  · have hshift : BitVec.ofNat 32 (16 * x) >>> 4 = BitVec.ofNat 32 x := by
      apply BitVec.eq_of_toNat_eq
      simp only [BitVec.toNat_ushiftRight, BitVec.toNat_ofNat, Nat.shiftRight_eq_div_pow]
      omega
    apply BitVec.eq_of_toNat_eq
    have h1 : (1 : BitVec 32).toNat = 1 := rfl
    have h1' : (1 : BitVec 16).toNat = 1 := rfl
    rw [hshift]
    simp only [BitVec.toNat_setWidth, BitVec.toNat_sub, BitVec.toNat_ofNat, h1, h1']
    omega

/-- **The flux sequence of a bit string is the list of its gaps.** -/
theorem emit_fluxStep_gaps (tpc : BitVec 32) (l : List Bool) : ∀ n,
    (∀ g ∈ gapsFrom n l, g * tpc.toNat ≤ 65536) →
    emit (fluxStep (tpc <<< 4)) (BitVec.ofNat 32 (n * (16 * tpc.toNat))) l =
      (gapsFrom n l).map (gapArr tpc.toNat) := by
  induction l with
  | nil => intro n _; rfl
  | cons b l ih =>
    intro n hfit
    cases b with
    | false =>
      rw [emit_cons_none _ (fluxStep_false _ _), ticks_succ]
      exact ih (n + 1) hfit
    | true =>
      rw [emit_cons_some _ (fluxStep_gap (hfit (n + 1) (by simp [gapsFrom]))), gapsFrom,
        List.map_cons]
      congr 1
      have hrest := ih 0 fun g hg => hfit g (by simp [gapsFrom, hg])
      rwa [Nat.zero_mul] at hrest

/-- Calls of `_wdata_bc_to_flux` with any request sizes, one after the other:
the samples stored, in order, and `*wr` behind the last call. -/
def wdataCalls (m : Mem) (ticksPerCell : BitVec 32) :
    Write → List Nat → List (BitVec 16) × Write
  | wr, [] => ([], wr)
  | wr, nr :: reqs =>
      let r := wdataBcToFluxTbuf m ticksPerCell wr nr
      let r' := wdataCalls m ticksPerCell r.2 reqs
      (r.1 ++ r'.1, r'.2)

/-- However the requests are cut, the calls produce one flux sequence. -/
theorem wdataCalls_emit (m : Mem) (ticksPerCell : BitVec 32) (reqs : List Nat) :
    ∀ wr : Write, wr.nrWords % 2 = 0 → wr.bcCons ≤ wr.nrWords * 16 →
      let r := wdataCalls m ticksPerCell wr reqs
      r.1 ++ emit (fluxStep (ticksPerCell <<< 4)) r.2.ticksSinceFlux
          ((wr.bits m).drop r.2.bcCons) =
        emit (fluxStep (ticksPerCell <<< 4)) wr.ticksSinceFlux ((wr.bits m).drop wr.bcCons) := by
  induction reqs with
  | nil => intro wr _ _; rfl
  | cons nr reqs ih =>
    intro wr heven hcons
    obtain ⟨-, hp, hnr, hcons', hemit⟩ :=
      wdataBcToFluxTbuf_spec m ticksPerCell wr nr heven hcons
    have hrest := ih (wdataBcToFluxTbuf m ticksPerCell wr nr).2 (by rw [hnr]; exact heven)
      (by rw [hnr]; exact hcons')
    have hbits : (wdataBcToFluxTbuf m ticksPerCell wr nr).2.bits m = wr.bits m := by
      rw [Write.bits, Write.bits, hp, hnr]
    rw [hbits] at hrest
    simp only [wdataCalls, List.append_assoc]
    rw [hrest, hemit]

/-- Calls that exhaust the buffer have produced the reload values of its gaps. -/
theorem wdataCalls_gaps {m : Mem} {ticksPerCell : BitVec 32} {wr : Write} {reqs : List Nat}
    (heven : wr.nrWords % 2 = 0) (hticks : wr.ticksSinceFlux = 0) (hcons : wr.bcCons = 0)
    (hend : (wdataCalls m ticksPerCell wr reqs).2.bcCons = wr.nrWords * 16)
    (hfit : ∀ g ∈ gaps (wr.bits m), g * ticksPerCell.toNat ≤ 65535) :
    (wdataCalls m ticksPerCell wr reqs).1 =
      (gaps (wr.bits m)).map (gapArr ticksPerCell.toNat) := by
  have hcalls := wdataCalls_emit m ticksPerCell reqs wr heven (by omega)
  have hnil : (wr.bits m).drop (wdataCalls m ticksPerCell wr reqs).2.bcCons = [] :=
    List.drop_eq_nil_of_le (by simp [hend])
  have hgaps := emit_fluxStep_gaps ticksPerCell (wr.bits m) 0 fun g hg =>
    Nat.le_succ_of_le (hfit g hg)
  rw [Nat.zero_mul] at hgaps
  simp only [hnil, emit_nil, List.append_nil, hcons, List.drop_zero, hticks] at hcalls
  exact hcalls.trans hgaps

/-! ## From captured intervals to gaps -/

theorem toNat_half (cell : BitVec 16) : (cell >>> 1).toNat = cell.toNat / 2 := by
  rw [BitVec.toNat_ushiftRight, Nat.shiftRight_eq_div_pow]

/-- The captured interval `c` is a gap of `g` cells, off by less than half a cell. -/
structure Timed (cell g : Nat) (c : BitVec 16) : Prop where
  pos : 0 < g
  lt : g < 32
  lo : g * cell < c.toNat + cell / 2
  hi : c.toNat < g * cell + cell / 2

namespace Timed

variable {cell : BitVec 16} {g : Nat} {c : BitVec 16}

/-- The quantiser of `rdata_wait_sync` recovers the gap. -/
theorem waitNr (h : Timed cell.toNat g c) : waitNr cell c = g := by
  have hpos := h.pos
  have hlo := h.lo
  have hhi := h.hi
  obtain ⟨k, rfl⟩ : ∃ k, g = k + 1 := ⟨g - 1, by omega⟩
  rw [Nat.succ_mul] at hlo hhi
  have hsub : (c.toNat : Int) - ((cell.toNat / 2 : Nat) : Int) =
      ((c.toNat - cell.toNat / 2 : Nat) : Int) := by omega
  have hdiv : (c.toNat - cell.toNat / 2) / cell.toNat = k :=
    Nat.div_eq_of_lt_le (by omega) (by rw [Nat.succ_mul]; omega)
  rw [Floppy.waitNr, toNat_half, hsub, ← Int.ofNat_tdiv, hdiv]
  omega

/-- The quantiser of `rdata_flux_to_bc` recovers the gap. -/
theorem fluxBits {window : BitVec 16} (hwindow : window.toNat = cell.toNat + cell.toNat / 2) :
    ∀ {g : Nat} {fuel : Nat} {c : BitVec 16}, Timed cell.toNat g c → g ≤ fuel →
      fluxBits cell window fuel c = gapBits g := by
  intro g
  induction g with
  | zero => intro fuel c h _; exact absurd h.pos (Nat.lt_irrefl 0)
  | succ k ih =>
    intro fuel c h hfuel
    obtain ⟨fuel, rfl⟩ : ∃ f, fuel = f + 1 := ⟨fuel - 1, by omega⟩
    have hlo := h.lo
    have hhi := h.hi
    have hlt := h.lt
    rw [Nat.succ_mul] at hlo hhi
    rcases Nat.eq_zero_or_pos k with rfl | hk
    · have hshort : ¬ window < c := by
        rw [BitVec.lt_def, hwindow]
        omega
      rw [Floppy.fluxBits, if_neg hshort]
      rfl
    · have hcell : cell.toNat ≤ k * cell.toNat := Nat.le_mul_of_pos_left _ hk
      have hlong : window < c := by
        rw [BitVec.lt_def, hwindow]
        omega
      have hsub : (c - cell).toNat = c.toNat - cell.toNat := by
        rw [BitVec.toNat_sub_of_le]
        rw [BitVec.le_def]
        omega
      have hrest : Timed cell.toNat k (c - cell) :=
        ⟨hk, by omega, by rw [hsub]; omega, by rw [hsub]; omega⟩
      rw [Floppy.fluxBits, if_pos hlong, ih hrest (by omega), gapBits, gapBits,
        show k + 1 - 1 = (k - 1) + 1 by omega, List.replicate_succ, List.cons_append]

/-- The bitcells that `rdata_flux_to_bc` delivers for the gap. -/
theorem intervalCells (hcell : cell.toNat ≤ 43690) (bcMax : Nat) (h : Timed cell.toNat g c) :
    intervalCells cell bcMax c = gapBits g := by
  have hlt := h.lt
  refine Timed.fluxBits ?_ h ?_
  · rw [BitVec.toNat_add, toNat_half]
    omega
  · simp only [intervalFuel]
    omega

end Timed

/-- The bitcells of timed intervals are those of their gaps. -/
theorem cellsOf_timed {cell : BitVec 16} (hcell : cell.toNat ≤ 43690) (bcMax : Nat)
    {gs : List Nat} {cs : List (BitVec 16)} (h : List.Forall₂ (Timed cell.toNat) gs cs) :
    cellsOf cell bcMax cs = ofGaps gs := by
  induction h with
  | nil => rfl
  | cons hg _ ih =>
    rw [ofGaps_cons, ← ih, ← hg.intervalCells hcell bcMax]
    rfl

/-! ## Where the reader locks -/

/-- The MFM sync mark, `0x44894489`, as bitcells. -/
def mfmSync : List Bool := bitsOf (0x44894489 : BitVec 32)

@[simp] theorem length_mfmSync : mfmSync.length = 32 := length_bitsOf _

theorem mfmSync_ne_nil : mfmSync ≠ [] := List.ne_nil_of_length_pos (by simp)

/-- The register shows the mark exactly when the bitcells read so far end with it. -/
theorem found_mfm_iff (l : List Bool) :
    Sync.mfm.found (pushBits (~~~0) l) ≠ 0 ↔ mfmSync <:+ l := by
  rw [mfmSync, ← pushBits_allOnes_eq_iff _ _ (by decide), Sync.found, if_neg (by decide)]
  by_cases h : pushBits (~~~0) l = (0x44894489 : BitVec 32)
  · rw [if_pos h]
    exact ⟨fun _ => h, fun _ => by decide⟩
  · rw [if_neg h]
    exact ⟨fun hne => absurd rfl hne, fun heq => absurd heq h⟩

/-- The register shows a mark behind the given bitcells. -/
def Sync.Shows (sync : Sync) (l : List Bool) : Prop := sync.found (pushBits (~~~0) l) ≠ 0

instance (sync : Sync) (l : List Bool) : Decidable (sync.Shows l) :=
  inferInstanceAs (Decidable (_ ≠ _))

/-- Of the top and the bottom bit of a mark, the one is clear and the other is set. -/
theorem Sync.found_ends {sync : Sync} {x : BitVec 32} (h : sync.found x ≠ 0) :
    x.getMsbD 0 = false ∧ x.getLsbD 0 = true := by
  rw [Sync.found] at h
  split at h
  · split at h
    · rename_i hmask
      have htop := congrArg (·.getMsbD 0) hmask
      have hlast := congrArg (·.getLsbD 0) hmask
      simp only [BitVec.getMsbD_and, BitVec.getLsbD_and] at htop hlast
      simpa using And.intro htop hlast
    · exact absurd rfl h
  · split at h
    · rename_i heq
      rw [heq]
      decide
    · exact absurd rfl h

/-- Clear bitcells never complete a mark, because it ends with a set one. -/
theorem Sync.not_shows_clear {sync : Sync} {l : List Bool} : ¬ sync.Shows (l ++ [false]) := by
  intro h
  have hlast := (Sync.found_ends h).2
  rw [getLsbD_pushBits _ _ _ (by decide), if_pos (by simp)] at hlast
  simp at hlast

/-- The register starts at all ones, so it takes all of the bitcells of a mark. -/
theorem Sync.Shows.le_length {sync : Sync} {l : List Bool} (h : sync.Shows l) :
    32 ≤ l.length := by
  have htop := (Sync.found_ends h).1
  by_contra hlt
  rw [BitVec.getMsbD_eq_getLsbD, getLsbD_pushBits _ _ _ (by decide), if_neg (by omega),
    BitVec.getLsbD_not] at htop
  simp [show 31 - l.length < 32 by omega] at htop

/-- Only the last 32 bitcells count. -/
theorem Sync.shows_append {sync : Sync} (pre : List Bool) {l : List Bool} (h : 32 ≤ l.length) :
    sync.Shows (pre ++ l) ↔ sync.Shows l := by
  rw [Sync.Shows, Sync.Shows, pushBits_append, pushBits_of_length _ (~~~0) l h]

theorem Sync.Shows.false_mem {sync : Sync} {l : List Bool} (h : sync.Shows l) : false ∈ l := by
  have htop := (Sync.found_ends h).1
  have hbits := bitsOf_pushBits (~~~0 : BitVec 32) l h.le_length
  have hmem : false ∈ bitsOf (pushBits (~~~0 : BitVec 32) l) :=
    List.mem_map.mpr ⟨0, List.mem_range.mpr (by decide), htop⟩
  rw [hbits] at hmem
  exact List.mem_of_mem_drop hmem

/-- What the register shows at the end of a timed interval. -/
theorem pushBits_timed {cell c : BitVec 16} {g : Nat} (h : Timed cell.toNat g c)
    (pre : List Bool) : (pushBits (~~~0) pre <<< waitNr cell c) ||| 1 =
      pushBits (~~~0 : BitVec 32) (pre ++ gapBits g) := by
  have hpos := h.pos
  rw [h.waitNr, pushBits_append, gapBits, pushBits_gap, Nat.sub_add_cancel hpos]
  rfl

/-- Within a gap the stream ends with a clear bitcell. -/
theorem Sync.not_shows_within_gap {sync : Sync} {g : Nat} (hg : 0 < g) (gs : List Nat)
    {pre : List Bool} {n : Nat} (hlt : pre.length < n) (hltg : n < (pre ++ gapBits g).length) :
    ¬ sync.Shows ((pre ++ ofGaps (g :: gs)).take n) := by
  have hlen := length_gapBits hg
  rw [List.length_append, hlen] at hltg
  obtain ⟨k, hk⟩ : ∃ k, n - pre.length = k + 1 := ⟨n - pre.length - 1, by omega⟩
  rw [List.take_append, List.take_of_length_le (by omega), hk, ofGaps_cons,
    List.take_append_of_le_length (by omega), gapBits_take (by omega), List.replicate_succ',
    ← List.append_assoc]
  exact Sync.not_shows_clear

/-- **A scan of timed intervals** finds the mark at the first set bitcell behind
which the stream ends with it. -/
theorem scan_timed (sync : Sync) {cell : BitVec 16} {gs : List Nat} {cs : List (BitVec 16)}
    (h : List.Forall₂ (Timed cell.toNat) gs cs) : ∀ pre : List Bool,
    let sc := sync.scan cell (pushBits (~~~0) pre) cs
    (sc.found = true → ∃ gs₁ gs₂, gs = gs₁ ++ gs₂ ∧
      List.Forall₂ (Timed cell.toNat) gs₂ sc.rest ∧
      sc.window = pushBits (~~~0) (pre ++ ofGaps gs₁) ∧ sync.Shows (pre ++ ofGaps gs₁) ∧
      ∀ n, pre.length < n → n < (pre ++ ofGaps gs₁).length →
        ¬ sync.Shows ((pre ++ ofGaps gs).take n)) ∧
    (sc.found = false → ∀ n, pre.length < n → n ≤ (pre ++ ofGaps gs).length →
      ¬ sync.Shows ((pre ++ ofGaps gs).take n)) := by
  induction h with
  | nil =>
    intro pre
    refine ⟨fun hfound => absurd hfound Bool.false_ne_true, fun _ n hlt hle => ?_⟩
    simp at hle
    omega
  | @cons g c gs cs hg hrest ih =>
    intro pre
    simp only [Sync.scan, pushBits_timed hg]
    by_cases hfound : sync.found (pushBits (~~~0) (pre ++ gapBits g)) ≠ 0
    · simp only [if_pos hfound]
      refine ⟨fun _ => ⟨[g], gs, rfl, hrest, ?_, ?_, ?_⟩, fun hnot => by cases hnot⟩
      · simp
      · rw [ofGaps_cons, ofGaps_nil, List.append_nil]
        exact hfound
      · simpa using fun n => Sync.not_shows_within_gap hg.pos gs (n := n)
    · simp only [if_neg hfound]
      have hall : (pre ++ gapBits g) ++ ofGaps gs = pre ++ ofGaps (g :: gs) := by simp
      -- at the end of the gap and before: nothing yet
      have hupto : ∀ n, pre.length < n → n ≤ (pre ++ gapBits g).length →
          ¬ sync.Shows ((pre ++ ofGaps (g :: gs)).take n) := by
        intro n hlt hle
        rcases Nat.lt_or_eq_of_le hle with hless | rfl
        · exact Sync.not_shows_within_gap hg.pos gs hlt hless
        · rw [← hall, List.take_left']
          · exact hfound
          · rfl
      have hrec := ih (pre ++ gapBits g)
      simp only [hall] at hrec
      refine ⟨fun hsc => ?_, fun hsc n hlt hle => ?_⟩
      · obtain ⟨gs₁, gs₂, rfl, htimed, hwindow, hmark, hfirst⟩ := hrec.1 hsc
        refine ⟨g :: gs₁, gs₂, rfl, htimed, ?_, ?_, fun n hlt hle => ?_⟩
        · rw [hwindow, ofGaps_cons, List.append_assoc]
        · simpa using hmark
        · by_cases hn : n ≤ (pre ++ gapBits g).length
          · exact hupto n hlt hn
          · exact hfirst n (by omega) (by simpa using hle)
      · by_cases hn : n ≤ (pre ++ gapBits g).length
        · exact hupto n hlt hn
        · exact hrec.2 hsc n (by omega) hle

/-- **What a read of timed intervals delivers**: the bitcells from the first mark on, as
many of its own as `sync_found` says. -/
theorem readCells_of_first {sync : Sync} (hsync : sync ≠ .none) {cell : BitVec 16} {gs : List Nat}
    {cs : List (BitVec 16)} {n : Nat} (bcMax : Nat) (h : List.Forall₂ (Timed cell.toNat) gs cs)
    (hfit : ∀ g ∈ gs, g * cell.toNat ≤ 65535) (hshows : sync.Shows ((ofGaps gs).take n))
    (hle : n ≤ (ofGaps gs).length) (hfirst : ∀ k, k < n → ¬ sync.Shows ((ofGaps gs).take k)) :
    readCells sync cell bcMax cs =
      some ((ofGaps gs).drop (n - sync.found (pushBits (~~~0) ((ofGaps gs).take n)))) := by
  -- a mark needs a gap of two, so the cell is small enough for the second quantiser
  have hcell : cell.toNat ≤ 43690 := by
    obtain ⟨g, hg, htwo⟩ := exists_two_le_of_false_mem (List.mem_of_mem_take hshows.false_mem)
    have hle := hfit g hg
    have := Nat.mul_le_mul_right cell.toNat htwo
    omega
  have hlong : 32 ≤ n := by
    have hlen := hshows.le_length
    rw [List.length_take] at hlen
    omega
  have hscan := scan_timed sync h []
  simp only [pushBits_nil, List.nil_append, List.length_nil] at hscan
  rw [readCells, if_neg hsync]
  cases hfound : (sync.scan cell (~~~0) cs).found with
  | false => exact absurd hshows (hscan.2 hfound _ (by omega) hle)
  | true =>
    obtain ⟨gs₁, gs₂, rfl, htimed, hwindow, hmark, hnot⟩ := hscan.1 hfound
    have htake : (ofGaps (gs₁ ++ gs₂)).take (ofGaps gs₁).length = ofGaps gs₁ := by
      rw [ofGaps_append, List.take_left' rfl]
    -- the scan stops at the end of the first mark
    have hstop : (ofGaps gs₁).length = n := by
      rcases Nat.lt_trichotomy (ofGaps gs₁).length n with hlt | heq | hgt
      · exact absurd (by rw [htake]; exact hmark) (hfirst _ hlt)
      · exact heq
      · exact absurd hshows (hnot n (by omega) hgt)
    rw [← hstop, htake, hstop]
    obtain ⟨k, hk⟩ : ∃ k, k = sync.found (pushBits (~~~0) (ofGaps gs₁)) := ⟨_, rfl⟩
    have hk32 : k ≤ 32 := by
      rw [hk, Sync.found]
      split <;> split <;> decide
    simp only [hfound, if_true, hwindow, cellsOf_timed hcell bcMax htimed, ← hk]
    rw [bitsOf_pushBits _ _ (by omega), List.drop_drop, hstop, ofGaps_append,
      List.drop_append_of_le_length (by omega), show n - 32 + (32 - k) = n - k by omega]

/-! ## The round trip -/

/-- The intervals that a capture of the given reload values shows, off by the
given errors. -/
def timedIntervals (arrs : List (BitVec 16)) (errs : List Int) : List (BitVec 16) :=
  List.zipWith (fun arr e => arr + 1 + BitVec.ofInt 16 e) arrs errs

/-- Reload values captured with small errors are timed intervals. -/
theorem timed_of_errors {cell : Nat} (gs : List Nat) : ∀ errs : List Int,
    errs.length = gs.length → (∀ g ∈ gs, 0 < g ∧ g < 32 ∧ g * cell ≤ 65535) →
    (∀ e ∈ errs, |e| < (cell / 2 : Nat)) →
    (∀ q ∈ gs.zip errs, (q.1 * cell : Nat) + q.2 ≤ 65535) →
    List.Forall₂ (Timed cell) gs (timedIntervals (gs.map (gapArr cell)) errs) := by
  induction gs with
  | nil => intro errs _ _ _ _; simp [timedIntervals]
  | cons g gs ih =>
    intro errs hlen hgs herrs hfit
    obtain _ | ⟨e, errs⟩ := errs
    · simp at hlen
    obtain ⟨hpos, hlt, hg⟩ := hgs g (by simp)
    have he := abs_lt.mp (herrs e (by simp))
    have hge : (g * cell : Nat) + e ≤ 65535 := hfit (g, e) (by simp)
    have hmul : cell ≤ g * cell := Nat.le_mul_of_pos_left _ hpos
    have hval : (gapArr cell g + 1 + BitVec.ofInt 16 e).toNat = ((g * cell : Nat) + e).toNat := by
      have hback : gapArr cell g + 1 = BitVec.ofInt 16 (g * cell : Nat) := by
        rw [gapArr, BitVec.sub_add_cancel]
        rfl
      rw [hback, ← BitVec.ofInt_add, BitVec.toNat_ofInt]
      omega
    refine List.Forall₂.cons ⟨hpos, hlt, ?_, ?_⟩ ?_
    · rw [hval]
      omega
    · rw [hval]
      omega
    · exact ih errs (by simpa using hlen) (fun g' hg' => hgs g' (by simp [hg']))
        (fun e' he' => herrs e' (by simp [he'])) (fun q hq => hfit q (by simp [hq]))

/-- **The reader delivers the written bitcells from the first sync mark on.** -/
theorem readCells_timed {cell : BitVec 16} {gs : List Nat} {cs : List (BitVec 16)} {i : Nat}
    (bcMax : Nat) (h : List.Forall₂ (Timed cell.toNat) gs cs)
    (hfit : ∀ g ∈ gs, g * cell.toNat ≤ 65535) (hfirst : FirstAt mfmSync (ofGaps gs) i) :
    readCells .mfm cell bcMax cs = some ((ofGaps gs).drop i) := by
  have hile := hfirst.1.le_length mfmSync_ne_nil
  have hend := (occursAt_iff_suffix_take hile).mp hfirst.1
  have hshows : Sync.mfm.Shows ((ofGaps gs).take (i + mfmSync.length)) := (found_mfm_iff _).mpr hend
  have hnot : ∀ k, k < i + mfmSync.length → ¬ Sync.mfm.Shows ((ofGaps gs).take k) := by
    intro k hk hshows'
    have hlen := hshows'.le_length
    rw [List.length_take] at hlen
    rw [length_mfmSync] at hk hile
    refine hfirst.2 (k - 32) (by omega) ((occursAt_iff_suffix_take ?_).mpr ?_)
    · rw [length_mfmSync]
      omega
    · rw [length_mfmSync, Nat.sub_add_cancel (by omega)]
      exact (found_mfm_iff _).mp hshows'
  have hfound : Sync.mfm.found (pushBits (~~~0) ((ofGaps gs).take (i + mfmSync.length))) = 32 := by
    have hne := hshows
    rw [Sync.Shows, Sync.found, if_neg (by decide)] at hne
    rw [Sync.found, if_neg (by decide)]
    split at hne
    · rename_i heq
      rw [if_pos heq]
    · exact absurd rfl hne
  rw [readCells_of_first (by decide) bcMax h hfit hshows hile hnot, hfound, length_mfmSync,
    Nat.add_sub_cancel]

/-- A set bitcell lies within the last gap. -/
theorem lt_length_ofGaps_gaps {l : List Bool} {j : Nat} (h : l[j]? = some true) :
    j < (ofGaps (gaps l)).length := by
  obtain ⟨r, hr⟩ := ofGaps_gaps l
  by_contra hge
  rw [hr, List.getElem?_append_right (by omega), List.getElem?_replicate] at h
  split at h <;> simp at h

/-- The first sync mark is the same with or without the clear bitcells at the end. -/
theorem firstAt_ofGaps_gaps {l : List Bool} {i : Nat} (h : FirstAt mfmSync l i)
    (hle : i + mfmSync.length ≤ (ofGaps (gaps l)).length) :
    FirstAt mfmSync (ofGaps (gaps l)) i := by
  obtain ⟨r, hr⟩ := ofGaps_gaps l
  obtain ⟨hocc, hno⟩ := h
  refine ⟨?_, fun j hj hoccj => hno j hj ?_⟩
  · rw [hr] at hocc
    exact (occursAt_append_iff hle).mp hocc
  · rw [hr]
    exact (occursAt_append_iff (by omega)).mpr hoccj

/-- From a place up to its last set bit, a bit string goes on as it does there. -/
theorem drop_ofGaps_gaps {l : List Bool} {i : Nat} (hle : i ≤ (ofGaps (gaps l)).length) :
    (ofGaps (gaps l)).drop i <+: l.drop i := by
  obtain ⟨r, hr⟩ := ofGaps_gaps l
  refine ⟨List.replicate r false, ?_⟩
  conv => rhs; rw [hr]
  rw [List.drop_append_of_le_length hle]

/-- What a read has delivered so far is the beginning of what it delivers. -/
theorem readCells_so_far {sync : Sync} {cell : BitVec 16} {bcMax : Nat} {l cs : List (BitVec 16)}
    {cells out : List Bool} (hall : readCells sync cell bcMax cs = some out) (hl : l <+: cs)
    (hcells : readCells sync cell bcMax l = some cells) : cells <+: out := by
  obtain ⟨rest, hrest⟩ := hl
  have happend := readCells_append hcells rest
  rw [hrest, hall] at happend
  rw [Option.some.inj happend]
  exact List.prefix_append _ _

/-- A cell that some gap fits in fits 16 bits. -/
theorem setWidth_cell {ticksPerCell : BitVec 32} {l : List Bool} (hne : gaps l ≠ [])
    (hfit : ∀ g ∈ gaps l, g * ticksPerCell.toNat ≤ 65535) :
    (ticksPerCell.setWidth 16).toNat = ticksPerCell.toNat := by
  obtain ⟨g, hg⟩ := List.exists_mem_of_ne_nil _ hne
  have hle := Nat.le_mul_of_pos_left ticksPerCell.toNat (pos_of_mem_gapsFrom l 0 hg)
  have hgap := hfit g hg
  rw [BitVec.toNat_setWidth]
  omega

/-- **The captures of a written buffer** show its bitcells from the first sync mark on. -/
theorem readCells_captures {m : Mem} {ticksPerCell : BitVec 32} {wr : Write} {reqs : List Nat}
    {errs : List Int} {cnt : BitVec 16} {caps : List (BitVec 16)} {i : Nat} (bcMax : Nat)
    (heven : wr.nrWords % 2 = 0) (hticks : wr.ticksSinceFlux = 0) (hcons : wr.bcCons = 0)
    (hend : (wdataCalls m ticksPerCell wr reqs).2.bcCons = wr.nrWords * 16)
    (hgaps : ∀ g ∈ gaps (wr.bits m), g < 32 ∧ g * ticksPerCell.toNat ≤ 65535)
    (hlen : errs.length = (gaps (wr.bits m)).length)
    (herr : ∀ e ∈ errs, |e| < (ticksPerCell.toNat / 2 : Nat))
    (hfit : ∀ q ∈ (gaps (wr.bits m)).zip errs, (q.1 * ticksPerCell.toNat : Nat) + q.2 ≤ 65535)
    (hcaps : intervals cnt caps = timedIntervals (wdataCalls m ticksPerCell wr reqs).1 errs)
    (hfirst : FirstAt mfmSync (wr.bits m) i)
    (hmark : i + mfmSync.length ≤ (ofGaps (gaps (wr.bits m))).length) :
    readCells .mfm (ticksPerCell.setWidth 16) bcMax (intervals cnt caps) =
      some ((ofGaps (gaps (wr.bits m))).drop i) := by
  have hne : gaps (wr.bits m) ≠ [] := by
    intro hnil
    rw [hnil, ofGaps_nil, length_mfmSync] at hmark
    exact Nat.not_succ_le_zero _ hmark
  have hcell := setWidth_cell hne fun g hg => (hgaps g hg).2
  have htimed : List.Forall₂ (Timed (ticksPerCell.setWidth 16).toNat) (gaps (wr.bits m))
      (intervals cnt caps) := by
    rw [hcaps, wdataCalls_gaps heven hticks hcons hend fun g hg => (hgaps g hg).2, hcell]
    exact timed_of_errors _ errs hlen
      (fun g hg => ⟨pos_of_mem_gapsFrom (wr.bits m) 0 hg, hgaps g hg⟩) herr hfit
  exact readCells_timed _ htimed (fun g hg => by rw [hcell]; exact (hgaps g hg).2)
    (firstAt_ofGaps_gaps hfirst hmark)

/-- **Flux round trip.**  A bitcell buffer is written with any request sizes;
every reload value is captured with an error of less than half a cell; and a read
that waits for the MFM sync mark runs on the captures, with any split between
polls.  Then what the read has delivered is at every time the written bitcells
from the first sync mark on, and all of them are delivered within two polls of
the last capture, as long as the last bitcell asked for is not behind the last
set bitcell written. -/
theorem flux_round_trip (m m₀ : Mem) (ticksPerCell : BitVec 32) (wr : Write) (reqs : List Nat)
    (errs : List Int) (rd : Read) (cnt : BitVec 16) (buf : Nat → BitVec 16) (rx : Rx)
    (now : BitVec 32) (caps : List (BitVec 16)) (s : RdRun) (i j : Nat)
    -- the whole buffer is written
    (heven : wr.nrWords % 2 = 0) (hticks : wr.ticksSinceFlux = 0) (hcons : wr.bcCons = 0)
    (hend : (wdataCalls m ticksPerCell wr reqs).2.bcCons = wr.nrWords * 16)
    (hgaps : ∀ g ∈ gaps (wr.bits m), g < 32 ∧ g * ticksPerCell.toNat ≤ 65535)
    -- it is captured with small errors
    (hlen : errs.length = (gaps (wr.bits m)).length)
    (herr : ∀ e ∈ errs, |e| < (ticksPerCell.toNat / 2 : Nat))
    (hfit : ∀ q ∈ (gaps (wr.bits m)).zip errs, (q.1 * ticksPerCell.toNat : Nat) + q.2 ≤ 65535)
    (hcaps : intervals cnt caps = timedIntervals (wdataCalls m ticksPerCell wr reqs).1 errs)
    -- it holds a sync mark, and enough bitcells behind it
    (hfirst : FirstAt mfmSync (wr.bits m) i) (hset : (wr.bits m)[j]? = some true)
    (hlast : i + rd.nrWords * 16 ≤ j + 1)
    -- and it is read
    (hwords : 4 ≤ rd.nrWords) (hsync : rd.sync = .mfm)
    (hprep : floppyReadPrep rd cnt buf = some rx)
    (hrun : Relation.ReflTransGen (RdStep ticksPerCell) (RdRun.enter m₀ rx now) s)
    (harrived : s.arrived <+: caps) :
    (s.phase = .reading → ∃ n, s.rx.rd.bcProd = n ∧ n < rd.nrWords * 16 ∧
      s.m.bits rd.p (4 * (n / 32)) = ((wr.bits m).drop i).take (32 * (n / 32))) ∧
    (s.phase = .done →
      s.m.bits rd.p (2 * rd.nrWords) = ((wr.bits m).drop i).take (rd.nrWords * 16)) ∧
    (s.arrived = caps → ∀ n n' : BitVec 32,
      ((s.poll ticksPerCell n).poll ticksPerCell n').phase = .done) := by
  have hrdeven : rd.nrWords % 2 = 0 := by
    unfold floppyReadPrep at hprep
    split at hprep
    · rename_i hassert
      exact hassert.2
    · cases hprep
  have hjlt := lt_length_ofGaps_gaps hset
  have hmark : i + mfmSync.length ≤ (ofGaps (gaps (wr.bits m))).length := by
    rw [length_mfmSync]
    omega
  have hall := readCells_captures (rd.nrWords * 16) heven hticks hcons hend hgaps hlen herr hfit
    hcaps hfirst hmark
  rw [← hsync] at hall
  have hsofar : ∀ {l cells : List _}, l <+: intervals cnt caps →
      readCells rd.sync (ticksPerCell.setWidth 16) (rd.nrWords * 16) l = some cells →
      cells <+: (wr.bits m).drop i := fun hl hcells =>
    (readCells_so_far hall hl hcells).trans (drop_ofGaps_gaps (by omega))
  have hintervals : intervals cnt s.arrived <+: intervals cnt caps := by
    obtain ⟨rest, rfl⟩ := harrived
    rw [intervals_append]
    exact List.prefix_append _ _
  have hinv := RdRun.Inv.of_run hwords hprep hrun
  refine ⟨fun hreading => ?_, fun hdone => ?_, fun heq n n' => ?_⟩
  · have hprogress := hinv.progress
    simp only [RdRun.Progress, hreading] at hprogress
    obtain ⟨cells, hcells, hless, hholds⟩ := hprogress
    rw [intervals_take] at hcells
    obtain ⟨rest, hrest⟩ := hsofar ((List.take_prefix _ _).trans hintervals) hcells
    refine ⟨cells.length, hholds.prod_eq, hless, ?_⟩
    rw [hholds.stored, ← hrest, List.take_append_of_le_length (by omega)]
  · obtain ⟨cells, hcells, hfull⟩ := hinv.done hdone
    obtain ⟨rest, hrest⟩ := hsofar hintervals hcells
    have hstored := hfull.stored
    rw [show rd.nrWords * 16 / 8 = 2 * rd.nrWords by omega] at hstored
    rw [hstored, ← hrest, List.take_append_of_le_length hfull.enough]
  · rw [← heq] at hall
    refine hinv.two_polls n n' hwords hrdeven hall ?_
    rw [List.length_drop]
    omega

/-- Captures that fit into the ring all arrive before the next poll. -/
theorem RdRun.run_captures (ticksPerCell : BitVec 32) (vs : List (BitVec 16)) : ∀ s : RdRun,
    s.taken ≤ s.arrived.length → s.outstanding + vs.length < ringSize →
    Relation.ReflTransGen (RdStep ticksPerCell) s (vs.foldl RdRun.capture s) ∧
      (vs.foldl RdRun.capture s).arrived = s.arrived ++ vs := by
  induction vs with
  | nil => intro s _ _; exact ⟨.refl, by simp⟩
  | cons v vs ih =>
    intro s htaken hroom
    have hout : (s.capture v).outstanding = s.outstanding + 1 := by
      simp only [RdRun.capture, RdRun.outstanding, List.length_append, List.length_singleton]
      omega
    rw [List.length_cons] at hroom
    obtain ⟨hrun, harrived⟩ := ih (s.capture v)
      (by simp only [RdRun.capture, List.length_append]; omega) (by omega)
    refine ⟨Relation.ReflTransGen.head (RdStep.capture s v (by omega)) hrun, ?_⟩
    rw [List.foldl_cons, harrived]
    simp [RdRun.capture]

/-- A mark between two words of filler, with errors of one tick in a cell of four. -/
theorem flux_round_trip_one_mark : ∃ s : RdRun, s.arrived.length = 14 ∧
    ((s.poll 4 0).poll 4 0).phase = .done := by
  obtain ⟨hrun, harrived⟩ := RdRun.run_captures 4
    [65, 128, 137, 152, 165, 180, 193, 200, 217, 228, 245, 256, 321, 384]
    (RdRun.enter (fun _ => 0) ⟨⟨0, 4, .mfm, 0, 0, ~~~0, 0⟩, 0, 0, fun _ => 0, Cndtr.start⟩ 0)
    (Nat.le_refl _) (by decide)
  refine ⟨_, by rw [harrived]; rfl, (flux_round_trip
    (fun a => [0, 1, 0, 1, 0x44, 0x89, 0x44, 0x89, 0, 1, 0, 1].getD a 0) (fun _ => 0) 4
    ⟨0, 6, 0, 0, 0⟩ [5, 1, 20] [1, -1, 1, -1, 1, -1, 1, -1, 1, -1, 1, -1, 1, -1]
    ⟨0, 4, .mfm, 0, 0, 0, 0⟩ 0 (fun _ => 0) _ 0 _ _ 32 95 rfl rfl rfl (by decide) (by decide)
    (by decide) (by decide) (by decide) (by decide) ⟨by decide, by decide⟩ (by decide) (by decide)
    (by decide) rfl rfl hrun (harrived ▸ List.prefix_refl _)).2.2 harrived 0 0⟩

end FlashFloppyTestbed.Floppy
