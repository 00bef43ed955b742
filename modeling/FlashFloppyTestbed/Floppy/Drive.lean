/-
  Floppy/Drive.lean --- a drive with a disk in it.

  The head is over one of the disk's tracks: the cylinder it was stepped to, on the
  side that is selected.  What is read comes from there, and what is written goes
  there and nowhere else (`Drive.record_tracks`).
-/
import FlashFloppyTestbed.Disk.Store
import FlashFloppyTestbed.Floppy.Head

set_option autoImplicit false

namespace FlashFloppyTestbed

open FlashFloppyTestbed.Foundation FlashFloppyTestbed.Floppy

/-! ## The side -/

namespace Floppy.Head

theorem setStep_side (s : Head) (x : Bool) : (s.setStep x).side = s.side := by
  unfold setStep
  split <;> rfl

theorem stepOneOut_side (s : Head) : s.stepOneOut.side = s.side := by
  rw [stepOneOut, setStep_side, setStep_side]
  rfl

theorem stepOneIn_side (s : Head) : s.stepOneIn.side = s.side := by
  rw [stepOneIn, setStep_side, setStep_side]
  rfl

/-- A seek selects the side. -/
theorem floppySeek_side {s t : Head} {fuel cyl side : Nat}
    (h : s.floppySeek fuel cyl side = some t) : t.side = decide (side ≠ 0) := by
  obtain ⟨s₀, h₀, h⟩ := Option.bind_eq_some_iff.mp h
  obtain ⟨s₁, h₁, h₂⟩ := Option.bind_eq_some_iff.mp h
  have hside₀ : s₀.side = decide (side ≠ 0) := by
    by_cases hcyl : cyl = 0
    · rw [if_pos hcyl] at h₀
      obtain ⟨t₀, ht₀, rfl⟩ := Option.map_eq_some_iff.mp h₀
      have hkept : t₀.side = decide (side ≠ 0) :=
        whileLoop_keeps (P := fun s : Head => s.side = decide (side ≠ 0)) (f := stepOneOut)
          (fun s hs => (stepOneOut_side s).trans hs) rfl ht₀
      exact hkept
    · rw [if_neg hcyl] at h₀
      exact Option.some.inj h₀ ▸ rfl
  have hside₁ : s₁.side = decide (side ≠ 0) :=
    whileLoop_keeps (P := fun s : Head => s.side = decide (side ≠ 0))
      (f := fun s : Head => s.stepOneIn.setCyl (s.stepOneIn.curCyl + 1))
      (fun s hs => (stepOneIn_side s).trans hs) hside₀ h₁
  exact whileLoop_keeps (P := fun s : Head => s.side = decide (side ≠ 0))
    (f := fun s : Head => s.stepOneOut.setCyl (s.stepOneOut.curCyl - 1))
    (fun s hs => (stepOneOut_side s).trans hs) hside₁ h₂

end Floppy.Head

/-! ## The drive -/

/-- The head, and the revolutions of the disk, by cylinder and side. -/
structure Drive where
  head : Head
  tracks : Nat → Bool → Disk

namespace Drive

/-- The revolution that the head is over. -/
def current (v : Drive) : Disk := v.tracks v.head.head v.head.side

/-- A write leaves another revolution there. -/
def record (v : Drive) (d : Disk) : Drive :=
  { v with tracks := fun cyl side =>
      if cyl = v.head.head ∧ side = v.head.side then d else v.tracks cyl side }

@[simp] theorem record_head (v : Drive) (d : Disk) : (v.record d).head = v.head := rfl

@[simp] theorem record_current (v : Drive) (d : Disk) : (v.record d).current = d :=
  if_pos ⟨rfl, rfl⟩

theorem record_tracks (v : Drive) (d : Disk) {cyl : Nat} {side : Bool}
    (h : ¬ (cyl = v.head.head ∧ side = v.head.side)) :
    (v.record d).tracks cyl side = v.tracks cyl side :=
  if_neg h

/-- A seek gets to a track, from wherever the head is. -/
theorem seek_settles {v : Drive} (h : v.head.Synced) {cyl : Nat} (hcyl : cyl ≤ 255) (side : Nat) :
    ∃ t : Head, t.Synced ∧ t.head = cyl ∧ t.side = decide (side ≠ 0) ∧
      ∀ fuel, 255 < fuel → v.head.floppySeek fuel cyl side = some t := by
  obtain ⟨t, ht, hhead, hend⟩ := Head.floppySeek_settles h hcyl side
  exact ⟨t, ht, hhead, Head.floppySeek_side (hend.enough 256 (by decide)), hend.enough⟩

end Drive

end FlashFloppyTestbed
