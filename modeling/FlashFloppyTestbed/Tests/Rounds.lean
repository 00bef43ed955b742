/-
  Tests/Rounds.lean --- the rounds of `main` in `src/main.c`.

  A round calls the tests one behind the other, on the drive that the last one has left.
  What one of them relies on, the others keep: unit 0 stays in step, and the status
  sectors stay as they are (`TestStep.keeps`).  So none of them ever warns, in whatever
  order they are called (`tests_silent`).  A format and an Amiga write replace the whole
  revolution, the one up to filler.

  `hfe_test` has no `WARN_ON`, and what `img_test` checks is up to the drive; they are
  among whatever else is done with it.
-/
import FlashFloppyTestbed.Tests.AdfTest

set_option autoImplicit false

namespace FlashFloppyTestbed

open FlashFloppyTestbed.Foundation FlashFloppyTestbed.Floppy FlashFloppyTestbed.Edsk

/-! ## Rounds -/

/-- Where a round is: the drive, the seed of `rand`, and whether a `WARN_ON` has fired. -/
structure Round where
  drive : Drive
  seed : BitVec 32
  warned : Bool

/-- A test that returns, or whatever else is done with the drive. -/
inductive TestStep : Round → Round → Prop where
  | da {e : DaEnv} {m : Mem} {s : Round} {r : Drive × Bool} :
      e.Good m → daTest e s.drive m = some r → TestStep s ⟨r.1, s.seed, s.warned || r.2⟩
  | dsk {e : DskEnv} {s : Round} {r : TestRun} :
      e.Good → dskTest e s.drive s.seed = some r → r.bug = false →
      TestStep s ⟨r.drive, r.seed, s.warned || r.warned⟩
  | adf {e : AdfEnv} {nsec : Nat} {s : Round} {r : TestRun} :
      e.Good → nsec = 11 ∨ nsec = 22 → adfTest e nsec s.drive s.seed = some r → r.bug = false →
      TestStep s ⟨r.drive, r.seed, s.warned || r.warned⟩
  | other {s : Round} {v : Drive} {seed : BitVec 32} :
      v.head.Synced → Answers v.tracks → TestStep s ⟨v, seed, s.warned⟩

/-- What every test keeps. -/
structure Round.Kept (s : Round) : Prop where
  synced : s.drive.head.Synced
  answers : Answers s.drive.tracks
  silent : s.warned = false

theorem TestStep.keeps {s s' : Round} (hstep : TestStep s s') (h : s.Kept) : s'.Kept := by
  cases hstep with
  | @da e m _ r hgood hcall =>
    obtain ⟨t, hsync, -, hspec⟩ := daTest_spec hgood h.synced h.answers
    obtain rfl := Option.some.inj (hspec.symm.trans hcall)
    exact ⟨hsync, h.answers, by rw [h.silent]; rfl⟩
  | @dsk e _ r hgood hcall _ =>
    obtain ⟨r', hspec, hwarned, -, hsync, hanswers⟩ :=
      dskTest_spec hgood h.synced h.answers s.seed
    obtain rfl := Option.some.inj (hspec.symm.trans hcall)
    exact ⟨hsync, hanswers, by rw [h.silent, hwarned]; rfl⟩
  | @adf e nsec _ r hgood hnsec hcall _ =>
    obtain ⟨r', hspec, hwarned, -, hsync, hanswers⟩ :=
      adfTest_spec hgood hnsec h.synced h.answers s.seed
    obtain rfl := Option.some.inj (hspec.symm.trans hcall)
    exact ⟨hsync, hanswers, by rw [h.silent, hwarned]; rfl⟩
  | other hsync hanswers => exact ⟨hsync, hanswers, h.silent⟩

/-- **The tests never cry wolf**, from `floppy_init` on: on a drive that answers the Direct Access
protocol, mounts what it is told to mount and keeps what is written, no `WARN_ON` of the tests
has fired, in whatever order they were called and with whatever else was done with the drive
between them.  Each of them can be called once more, does not warn, and returns if and only if
the disk is changed in time. -/
theorem tests_silent (s₀ : Head) {tracks : Nat → Bool → Disk} (hanswers : Answers tracks)
    (seed : BitVec 32) :
    ∃ s₁, Settles (fun fuel => s₀.floppyInit fuel) s₀.head s₁ ∧
      ∀ s, Relation.ReflTransGen TestStep ⟨⟨s₁.floppySelect 0, tracks⟩, seed, false⟩ s →
        s.warned = false ∧
        (∀ (e : DaEnv) m, e.Good m → ∃ v, daTest e s.drive m = some (v, false)) ∧
        (∀ e : DskEnv, e.Good → ∃ r, dskTest e s.drive s.seed = some r ∧ r.warned = false ∧
          (r.bug = false ↔ e.da.change.InTime)) ∧
        ∀ e : AdfEnv, e.Good → ∀ nsec, nsec = 11 ∨ nsec = 22 →
          ∃ r, adfTest e nsec s.drive s.seed = some r ∧ r.warned = false ∧
            (r.bug = false ↔ e.da.change.InTime) := by
  obtain ⟨s₁, hsync, hinit⟩ := Head.floppyInit_settles s₀
  refine ⟨s₁, hinit, fun s hrun => ?_⟩
  have hkept : s.Kept := run_invariant (fun _ _ hstep h => hstep.keeps h) hrun
    ⟨hsync, hanswers, rfl⟩
  refine ⟨hkept.silent, fun e m hgood => ?_, fun e hgood => ?_, fun e hgood nsec hnsec => ?_⟩
  · obtain ⟨t, -, -, hspec⟩ := daTest_spec hgood hkept.synced hkept.answers
    exact ⟨_, hspec⟩
  · obtain ⟨r, hspec, hwarned, hbug, -⟩ :=
      dskTest_spec hgood hkept.synced hkept.answers s.seed
    exact ⟨r, hspec, hwarned, hbug⟩
  · obtain ⟨r, hspec, hwarned, hbug, -⟩ :=
      adfTest_spec hgood hnsec hkept.synced hkept.answers s.seed
    exact ⟨r, hspec, hwarned, hbug⟩

/-! ## A drive with the image -/

/-- What the drive mounts: the image of the tests. -/
def dskTracks : Nat → Bool → Disk :=
  answering fun cyl side => mfmDisk 84 (edskTrack (nrHeads * cyl + side.toNat))

theorem dskTracks_mounted {file : List Byte} (hfile : mkEdsk = .ok file) :
    Mounted dskTracks file := by
  intro cyl hcyl side
  obtain ⟨file', hfile', htracks⟩ := edskSectors_mkEdsk
  obtain rfl : file = file' := Except.ok.inj (hfile.symm.trans hfile')
  obtain ⟨k, hk⟩ : ∃ k, k = nrHeads * cyl + side.toNat := ⟨_, rfl⟩
  have hcyl' : cyl < 40 := hcyl
  have hlt : k < 80 := by
    have hside := side.toNat_lt
    rw [hk, nrHeads]
    omega
  have hcurrent : dskTracks cyl side = mfmDisk 84 (edskTrack k) := by
    rw [dskTracks, answering, if_neg (by omega), if_neg (by omega), hk]
  rw [hcurrent, ← hk, htracks k hlt]
  refine ⟨[], mfmDisk_formatted 84 fun s hs => ?_⟩
  obtain ⟨j, -, rfl⟩ := List.mem_map.mp hs
  have hn : (BitVec.ofNat 8 (k % 5 + 2)).toNat = k % 5 + 2 := by
    rw [BitVec.toNat_ofNat]
    omega
  rw [List.length_replicate]
  exact (congrArg (128 <<< ·) hn).symm

/-- A run of the read/write test that takes no time between its reads. -/
def promptRw (d : Disk) : RwEnv where
  mem := fun _ => 0
  buffers := (0, 4096)
  junk := fun _ => []
  table := fun _ => ⟨0, 0, 0, 0⟩
  ticksPerCell := 144
  fuel := d.size
  scanAt := 0
  scanResume := id
  start := fun t => BitVec.ofNat 32 (18 * t)
  indexTimestamp := 0
  writeAt := 5
  writeResume := id
  readAt := 6
  readResume := id

theorem promptRw_good {d : Disk} {gap3 : Nat} {idams : List Idam}
    (hclocked : (promptRw d).Clocked gap3 idams) : (promptRw d).Good d gap3 idams :=
  ⟨Nat.le_refl _, Nat.zero_le _, timely_id d 10, timely_id d 10, timely_id d 10, hclocked⟩

theorem promptRw_clocked (d : Disk) :
    (promptRw d).Clocked 84 (expectedIdams ⟨0, 0, 18, 2⟩ 3 16) := by
  have hsize : sectorBytes 84 (trackIdam ⟨0, 0, 3, 2⟩ 0) = 658 := by decide
  show |((BitVec.ofNat 32 (18 * (16 * (76 + sectorBytes 84 (trackIdam ⟨0, 0, 3, 2⟩ 0)))) -
      BitVec.ofNat 32 (18 * (16 * 76))).toNat : Int) -
        (sectorBytes 84 (trackIdam ⟨0, 0, 3, 2⟩ 0) * (2 * 144) : Nat)| < 144 ∧
    sectorBytes 84 (trackIdam ⟨0, 0, 3, 2⟩ 0) * (2 * 144) + 2 * 144 < 2 ^ 32 ∧ 0 < 144
  rw [hsize]
  decide

/-- The DSK test on such a drive, behind a test of the protocol. -/
theorem tests_silent_dsk :
    ∃ (e : DskEnv) (s : Round) (r : TestRun), dskTest e s.drive s.seed = some r ∧
      r.warned = false ∧ r.bug = false := by
  obtain ⟨m, hm⟩ : ∃ m : Mem, m =
      Mem.stBytes (Mem.stBytes (fun _ => 0) 0 daSig) 100 dskName := ⟨_, rfl⟩
  have hsig : m.Holds 0 daSig := hm ▸ rfl
  have hholds : m.Holds 100 dskName := hm ▸ rfl
  obtain ⟨da, hda⟩ : ∃ da, da = promptDa fun _ => dskTracks := ⟨_, rfl⟩
  have hgoodDa : da.Good m := hda ▸ promptDa_good (fun _ _ => answers_answering _) hsig
  obtain ⟨e, he⟩ : ∃ e : DskEnv, e = ⟨da, m, 100, promptRw, promptRw, promptRw,
    ⟨fun _ => 0, 0, [], 0⟩, promptCall, ⟨fun _ => 0, 0, [], 0⟩⟩ := ⟨_, rfl⟩
  have hgood : e.Good := by
    rw [he, hda]
    refine ⟨hda ▸ hgoodDa, ⟨hholds, by decide, .inl (show 100 + 7 < 1000 by decide), by decide,
      show 7 < 300 by decide⟩, fun _ _ _ _ hfile => dskTracks_mounted hfile, ?_, ?_, ?_,
      fun d => ⟨Nat.le_refl _, timely_id d 10⟩⟩
    · exact fun d c fs _ => promptRw_good (show 42 ≤ 84 by decide)
    · exact fun d c fs _ => promptRw_good (promptRw_clocked d)
    · exact fun d c fs _ => promptRw_good (promptRw_clocked d)
  obtain ⟨s₁, -, hround⟩ := tests_silent ⟨fun _ => 0, 0, false, false, false, false, 5, 0⟩
    (answers_answering fun _ _ => mfmDisk 84 []) 7
  obtain ⟨v, hv⟩ := (hround _ .refl).2.1 da m hgoodDa
  obtain ⟨r, hr, hwarned, hbug⟩ :=
    (hround _ (.single (TestStep.da hgoodDa hv))).2.2.1 e hgood
  refine ⟨e, _, r, hr, hwarned, hbug.mpr ?_⟩
  rw [he, hda]
  exact promptDa_inTime _

end FlashFloppyTestbed
