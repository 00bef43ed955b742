/-
  Floppy/Resume.lean --- `_wdata_bc_to_flux` can be stopped and resumed anywhere.

  `Progress` says what `*wr` means between two calls: the samples stored so far and the
  pending ticks are those of one pass over the first `bc_cons` bitcells.  Every call keeps
  it (`Progress.call`), whatever the request, so any sequence of calls stores a front of
  what one call with room for all of it would have stored (`resumable_flux`).
-/
import FlashFloppyTestbed.Floppy.RoundTrip
import Mathlib.Algebra.BigOperators.Group.List.Basic

set_option autoImplicit false

namespace FlashFloppyTestbed.Floppy

open FlashFloppyTestbed.Foundation

/-- What `*wr` means behind some calls that started from `wr₀` and stored `out`. -/
structure Progress (m : Mem) (ticksPerCell : BitVec 32) (wr₀ : Write) (out : List (BitVec 16))
    (wr : Write) : Prop where
  p : wr.p = wr₀.p
  nrWords : wr.nrWords = wr₀.nrWords
  le : wr.bcCons ≤ wr₀.nrWords * 16
  out : out = emit (fluxStep (ticksPerCell <<< 4)) wr₀.ticksSinceFlux
    ((wr₀.bits m).take wr.bcCons)
  ticks : wr.ticksSinceFlux = stateAfter (fluxStep (ticksPerCell <<< 4)) wr₀.ticksSinceFlux
    ((wr₀.bits m).take wr.bcCons)

theorem Progress.start (m : Mem) (ticksPerCell : BitVec 32) {wr : Write} (hcons : wr.bcCons = 0) :
    Progress m ticksPerCell wr [] wr := by
  refine ⟨rfl, rfl, by omega, ?_, ?_⟩
  · rw [hcons]
    rfl
  · rw [hcons]
    rfl

section Calls

variable {m : Mem} {ticksPerCell : BitVec 32} {wr₀ wr : Write} {out : List (BitVec 16)}

/-- A call behind the end of the buffer stores nothing and changes nothing. -/
theorem wdataBcToFluxTbuf_end (m : Mem) (ticksPerCell : BitVec 32) (heven : wr.nrWords % 2 = 0)
    (hend : wr.bcCons = wr.nrWords * 16) (nr : Nat) :
    wdataBcToFluxTbuf m ticksPerCell wr nr = ([], wr) := by
  rcases Nat.eq_zero_or_pos nr with rfl | hnr
  · rfl
  · have hnil : (wr.bits m).drop wr.bcCons = [] := List.drop_eq_nil_of_le (by simp [hend])
    rw [wdataBcToFluxTbuf_eq m ticksPerCell wr nr heven hend.le hnr, hnil, emitUpTo_nil]
    simp [← hend]

/-- **One call, of any size.**  It fills its request or reaches the end of the buffer. -/
theorem Progress.call (h : Progress m ticksPerCell wr₀ out wr) (heven : wr₀.nrWords % 2 = 0)
    (nr : Nat) :
    let c := wdataBcToFluxTbuf m ticksPerCell wr nr
    Progress m ticksPerCell wr₀ (out ++ c.1) c.2 ∧ c.1.length ≤ nr ∧
      (c.1.length = nr ∨ c.2.bcCons = wr₀.nrWords * 16) := by
  rcases Nat.eq_zero_or_pos nr with rfl | hnr
  · exact ⟨by simpa [wdataBcToFluxTbuf] using h, Nat.le_refl _, Or.inl rfl⟩
  · have hbits : wr.bits m = wr₀.bits m := by rw [Write.bits, Write.bits, h.p, h.nrWords]
    obtain ⟨read, hread, hout, hstate⟩ := emitUpTo_read (fluxStep (ticksPerCell <<< 4))
      ((wr₀.bits m).drop wr.bcCons) nr wr.ticksSinceFlux hnr
    obtain ⟨hlen, hrest, -⟩ := emitUpTo_spec (fluxStep (ticksPerCell <<< 4))
      ((wr₀.bits m).drop wr.bcCons) nr wr.ticksSinceFlux hnr
    rw [wdataBcToFluxTbuf_eq m ticksPerCell wr nr (by rw [h.nrWords]; exact heven)
      (by rw [h.nrWords]; exact h.le) hnr, hbits, h.nrWords]
    dsimp only
    generalize emitUpTo (fluxStep (ticksPerCell <<< 4)) nr wr.ticksSinceFlux
      ((wr₀.bits m).drop wr.bcCons) = c at *
    -- the bitcells consumed are those of the calls before, and those that this one read
    have htotal : (wr₀.bits m).length = wr₀.nrWords * 16 := wr₀.length_bits m
    have hsplit : wr₀.bits m = ((wr₀.bits m).take wr.bcCons ++ read) ++ c.rest := by
      rw [List.append_assoc, ← hread, List.take_append_drop]
    have htake : (wr₀.bits m).take (wr₀.nrWords * 16 - c.rest.length) =
        (wr₀.bits m).take wr.bcCons ++ read := by
      have hlength := congrArg List.length hsplit
      rw [List.length_append, htotal] at hlength
      calc (wr₀.bits m).take (wr₀.nrWords * 16 - c.rest.length)
          = (((wr₀.bits m).take wr.bcCons ++ read) ++ c.rest).take
              (wr₀.nrWords * 16 - c.rest.length) := congrArg _ hsplit
        _ = (wr₀.bits m).take wr.bcCons ++ read := List.take_left' (by omega)
    refine ⟨⟨h.p, rfl, Nat.sub_le _ _, ?_, ?_⟩, by omega, ?_⟩
    · rw [htake, emit_append, ← h.ticks, ← h.out, hout]
    · rw [htake, stateAfter_append, ← h.ticks, hstate]
    · rcases Nat.eq_zero_or_pos c.todo with htodo | htodo
      · exact Or.inl (by omega)
      · exact Or.inr (by rw [hrest htodo]; rfl)

/-- **A run of calls**, by induction on the requests. -/
theorem Progress.calls (heven : wr₀.nrWords % 2 = 0) (reqs : List Nat) :
    ∀ {out : List (BitVec 16)} {wr : Write}, Progress m ticksPerCell wr₀ out wr →
      let r := wdataCalls m ticksPerCell wr reqs
      Progress m ticksPerCell wr₀ (out ++ r.1) r.2 ∧ r.1.length ≤ reqs.sum ∧
        (r.1.length = reqs.sum ∨ r.2.bcCons = wr₀.nrWords * 16) := by
  induction reqs with
  | nil =>
    intro out wr h
    exact ⟨by simpa [wdataCalls] using h, Nat.le_refl _, Or.inl rfl⟩
  | cons nr reqs ih =>
    intro out wr h
    obtain ⟨hcall, hle, hfull⟩ := h.call heven nr
    obtain ⟨hcalls, hles, hfulls⟩ := ih hcall
    simp only [wdataCalls, List.length_append, List.sum_cons]
    refine ⟨by simpa using hcalls, by omega, ?_⟩
    rcases hfull with hfull | hend
    · exact hfulls.imp_left fun hlen => by omega
    · -- behind the end the later calls keep `*wr`
      right
      have hstay : ∀ reqs, wdataCalls m ticksPerCell
          (wdataBcToFluxTbuf m ticksPerCell wr nr).2 reqs =
            ([], (wdataBcToFluxTbuf m ticksPerCell wr nr).2) := by
        intro reqs
        induction reqs with
        | nil => rfl
        | cons nr' reqs ihr =>
          rw [wdataCalls, wdataBcToFluxTbuf_end m ticksPerCell
            (by rw [hcall.nrWords]; exact heven) (by rw [hcall.nrWords]; exact hend) nr']
          simp only [ihr, List.append_nil]
      rw [hstay]
      exact hend

end Calls

/-- The ticks pending behind a bit string are those of the clear bitcells at its end. -/
theorem stateAfter_fluxStep_run (tpc : BitVec 32) (l : List Bool) : ∀ n,
    (∀ g ∈ gapsFrom n l, g * tpc.toNat ≤ 65536) →
    stateAfter (fluxStep (tpc <<< 4)) (BitVec.ofNat 32 (n * (16 * tpc.toNat))) l =
      BitVec.ofNat 32 (runFrom n l * (16 * tpc.toNat)) := by
  induction l with
  | nil => exact fun _ _ => rfl
  | cons b l ih =>
    intro n hfit
    rw [stateAfter_cons]
    cases b with
    | false =>
      rw [fluxStep_false, ticks_succ]
      exact ih (n + 1) hfit
    | true =>
      rw [fluxStep_gap (hfit (n + 1) (by simp [gapsFrom]))]
      have hrest := ih 0 fun g hg => hfit g (by simp [gapsFrom, hg])
      rwa [Nat.zero_mul] at hrest

/-- The reload value of a gap that fits the timer: one less than its ticks. -/
theorem toNat_gapArr {cell g : Nat} (hg : 0 < g) (hcell : 0 < cell) (hfit : g * cell ≤ 65536) :
    (gapArr cell g).toNat + 1 = g * cell := by
  have hpos := Nat.mul_pos hg hcell
  have hone : (1 : BitVec 16).toNat = 1 := rfl
  rw [gapArr, BitVec.toNat_sub, BitVec.toNat_ofNat, hone]
  omega

section Samples

variable {m : Mem} {ticksPerCell : BitVec 32} {wr₀ wr : Write} {out : List (BitVec 16)}

/-- The samples stored are those of the bitcells consumed. -/
theorem Progress.out_eq (h : Progress m ticksPerCell wr₀ out wr) (hticks : wr₀.ticksSinceFlux = 0)
    (hfit : ∀ g ∈ gaps (wr₀.bits m), g * ticksPerCell.toNat ≤ 65536) :
    out = (gaps ((wr₀.bits m).take wr.bcCons)).map (gapArr ticksPerCell.toNat) := by
  have hgaps := emit_fluxStep_gaps ticksPerCell ((wr₀.bits m).take wr.bcCons) 0
    fun g hg => hfit g ((gaps_take _ _).subset hg)
  rw [Nat.zero_mul] at hgaps
  rw [h.out, hticks]
  exact hgaps

/-- The pending ticks are those of the clear bitcells consumed last. -/
theorem Progress.ticks_eq (h : Progress m ticksPerCell wr₀ out wr)
    (hticks : wr₀.ticksSinceFlux = 0)
    (hfit : ∀ g ∈ gaps (wr₀.bits m), g * ticksPerCell.toNat ≤ 65536) :
    wr.ticksSinceFlux =
      BitVec.ofNat 32 (runFrom 0 ((wr₀.bits m).take wr.bcCons) * (16 * ticksPerCell.toNat)) := by
  have hrun := stateAfter_fluxStep_run ticksPerCell ((wr₀.bits m).take wr.bcCons) 0
    fun g hg => hfit g ((gaps_take _ _).subset hg)
  rw [Nat.zero_mul] at hrun
  rw [h.ticks, hticks]
  exact hrun

/-- At the end of the buffer every gap has its sample. -/
theorem Progress.out_eq_of_end (h : Progress m ticksPerCell wr₀ out wr)
    (hticks : wr₀.ticksSinceFlux = 0)
    (hfit : ∀ g ∈ gaps (wr₀.bits m), g * ticksPerCell.toNat ≤ 65536)
    (hend : wr.bcCons = wr₀.nrWords * 16) :
    out = (gaps (wr₀.bits m)).map (gapArr ticksPerCell.toNat) := by
  have hout := h.out_eq hticks hfit
  rwa [hend, List.take_of_length_le (by simp)] at hout

/-- **A run of calls** stores as many of the samples of the buffer as it asked for. -/
theorem wdataCalls_front (heven : wr.nrWords % 2 = 0) (hcons : wr.bcCons = 0)
    (hticks : wr.ticksSinceFlux = 0)
    (hfit : ∀ g ∈ gaps (wr.bits m), g * ticksPerCell.toNat ≤ 65536) (reqs : List Nat) :
    (wdataCalls m ticksPerCell wr reqs).1 =
      ((gaps (wr.bits m)).take reqs.sum).map (gapArr ticksPerCell.toNat) := by
  obtain ⟨hr, hle, hfull⟩ := (Progress.start m ticksPerCell hcons).calls heven reqs
  rw [List.nil_append] at hr
  rw [List.map_take]
  rcases hfull with hlen | hend
  · have hfront : (wdataCalls m ticksPerCell wr reqs).1 <+:
        (gaps (wr.bits m)).map (gapArr ticksPerCell.toNat) := by
      rw [hr.out_eq hticks hfit]
      exact (gaps_take _ _).map _
    rw [← hlen]
    exact List.prefix_iff_eq_take.mp hfront
  · have hall := hr.out_eq_of_end hticks hfit hend
    rw [List.take_of_length_le (by rw [← hall]; exact hle)]
    exact hall

end Samples

/-- The samples for some gaps that fit the timer. -/
theorem map_toNat_gapArr {cell : Nat} (hcell : 0 < cell) {gs : List Nat}
    (hpos : ∀ g ∈ gs, 0 < g) (hfit : ∀ g ∈ gs, g * cell ≤ 65536) :
    (gs.map (gapArr cell)).map (fun x => x.toNat + 1) = gs.map (· * cell) := by
  rw [List.map_map]
  exact List.map_congr_left fun g hg => toNat_gapArr (hpos g hg) hcell (hfit g hg)

/-- **Flux generation can be resumed.**  The calls start at the front of a buffer, with any
requests.  Together they store the front of what one call stores that has room for all of
it: one sample for every set bit, one less than the ticks since the set bit before.  A call
fills its request or exhausts the buffer; `bc_cons` counts the bitcells behind which the
stored samples and the pending ticks stand; the buffer is exhausted after one call more than
it has set bits, none of them empty, and from then on nothing is stored or changed. -/
theorem resumable_flux {m : Mem} {ticksPerCell : BitVec 32} {wr : Write}
    (heven : wr.nrWords % 2 = 0) (hcons : wr.bcCons = 0) (hticks : wr.ticksSinceFlux = 0)
    (hcell : 1 ≤ ticksPerCell.toNat)
    (hfit : ∀ g ∈ gaps (wr.bits m), g * ticksPerCell.toNat ≤ 65536) (reqs : List Nat) :
    let cell := ticksPerCell.toNat
    let r := wdataCalls m ticksPerCell wr reqs
    (∀ nr, (gaps (wr.bits m)).length ≤ nr →
      r.1 = (wdataBcToFluxTbuf m ticksPerCell wr nr).1.take reqs.sum) ∧
    r.1.map (fun x => x.toNat + 1) = ((gaps (wr.bits m)).take reqs.sum).map (· * cell) ∧
    (∀ nr, let c := wdataBcToFluxTbuf m ticksPerCell r.2 nr
      c.1.length = nr ∨ c.1.length < nr ∧ c.2.bcCons = wr.nrWords * 16) ∧
    r.2.bcCons ≤ wr.nrWords * 16 ∧
    r.1.map (fun x => x.toNat + 1) = (gaps ((wr.bits m).take r.2.bcCons)).map (· * cell) ∧
    r.2.ticksSinceFlux =
      BitVec.ofNat 32 (runFrom 0 ((wr.bits m).take r.2.bcCons) * (16 * cell)) ∧
    ((∀ nr ∈ reqs, 1 ≤ nr) → (gaps (wr.bits m)).length < reqs.length →
      r.2.bcCons = wr.nrWords * 16) ∧
    (r.2.bcCons = wr.nrWords * 16 →
      r.1.map (fun x => x.toNat + 1) = (gaps (wr.bits m)).map (· * cell) ∧
      ∀ nr, wdataBcToFluxTbuf m ticksPerCell r.2 nr = ([], r.2)) := by
  intro cell r
  obtain ⟨hr, hle, hfull⟩ := (Progress.start m ticksPerCell hcons).calls heven reqs
  have hfront := wdataCalls_front heven hcons hticks hfit reqs
  have hpos : ∀ g ∈ gaps (wr.bits m), 0 < g := fun g hg => pos_of_mem_gapsFrom _ _ hg
  -- a front of the gaps, as ticks
  have hvals : ∀ gs, gs <+: gaps (wr.bits m) →
      (gs.map (gapArr cell)).map (fun x => x.toNat + 1) = gs.map (· * cell) := fun gs hgs =>
    map_toNat_gapArr hcell (fun g hg => hpos g (hgs.subset hg)) fun g hg => hfit g (hgs.subset hg)
  refine ⟨fun nr hnr => ?_, ?_, fun nr => ?_, hr.le, ?_, hr.ticks_eq hticks hfit,
    fun hall hlong => ?_, fun hend => ⟨?_, fun nr => ?_⟩⟩
  · have hone := wdataCalls_front heven hcons hticks hfit [nr]
    rw [List.sum_singleton, List.take_of_length_le hnr, wdataCalls, wdataCalls,
      List.append_nil] at hone
    rw [hfront, List.map_take, hone]
  · rw [hfront]
    exact hvals _ (List.take_prefix _ _)
  · obtain ⟨-, hlen, hcase⟩ := hr.call heven nr
    rcases Nat.lt_or_eq_of_le hlen with hlt | heq
    · exact Or.inr ⟨hlt, hcase.resolve_left hlt.ne⟩
    · exact Or.inl heq
  · rw [← hvals _ (gaps_take _ _), ← hr.out_eq hticks hfit, List.nil_append]
  · -- a run that never reached the end has stored more samples than there are set bits
    refine hfull.resolve_left fun hlen => ?_
    have hsum : reqs.length ≤ reqs.sum := List.length_le_sum_of_one_le reqs hall
    have hcount := congrArg List.length hfront
    rw [List.length_map, List.length_take] at hcount
    omega
  · rw [← hvals _ List.prefix_rfl, ← hr.out_eq_of_end hticks hfit hend, List.nil_append]
  · exact wdataBcToFluxTbuf_end m ticksPerCell (by rw [hr.nrWords]; exact heven)
      (by rw [hr.nrWords]; exact hend) nr

/-- Two words of set bits four bitcells of 100 ticks apart, in an empty and two short requests. -/
theorem resumable_flux_two_words :
    (wdataCalls (fun _ => 0x88) 100 ⟨0, 2, 0, 0, 0⟩ [0, 3, 1]).1.map (fun x => x.toNat + 1) =
      [100, 400, 400, 400] := by
  have hbits : gaps ((⟨0, 2, 0, 0, 0⟩ : Write).bits fun _ => 0x88) = [1, 4, 4, 4, 4, 4, 4, 4] := by
    decide
  have hfit : ∀ g ∈ [1, 4, 4, 4, 4, 4, 4, 4], g * (100 : BitVec 32).toNat ≤ 65536 := by decide
  rw [← hbits] at hfit
  rw [(resumable_flux (by decide) rfl rfl (by decide) hfit [0, 3, 1]).2.1, hbits]
  rfl

end FlashFloppyTestbed.Floppy
