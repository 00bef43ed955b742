/-
  Floppy/HardSector.lean --- the index pulses of a hard-sectored disk, as the tests
  of `src/main.c` check them.

  `stamp n` is the value of `index.timestamp` after pulse `n`.  A call of
  `get_index_period` that has seen pulse `n` returns at pulse `n + 1`.  With its
  index pulse half way through the last sector, a track of `sectors` sectors has
  `sectors - 1` full periods, then two halves (`HardSectored`).

  `wait_for_hard_sector_trkstart` finds the start of such a track from wherever it
  is called.  Whether it says that it did not find it is another matter: a search
  that comes to its end leaves `sectors + 1` in the counter, and the function
  compares that with `sectors`.
-/
import FlashFloppyTestbed.Timer
import Mathlib.Algebra.Group.Nat.Defs

set_option autoImplicit false

namespace FlashFloppyTestbed.Floppy

/-! ## The functions -/

/-- `time_us(x)`. -/
def timeUs (x : Int) : Int := x * timeMhz

/-- `get_index_period`, with pulse `n` the last one seen. -/
def getIndexPeriod (stamp : Nat → BitVec 32) (n : Nat) : Int := timeDiff (stamp n) (stamp (n + 1))

/-- A search loop with `k` turns left: the counter `i` and the last pulse seen `n`, as they
are after the loop. -/
def searchPeriod (stamp : Nat → BitVec 32) (test : Int → Bool) : Nat → Nat → Nat → Nat × Nat
  | 0, i, n => (i, n)
  | k + 1, i, n =>
    if test (getIndexPeriod stamp n) then (i, n + 1)
    else searchPeriod stamp test k (i + 1) (n + 1)

/-- Within 200us of `t`, as the loops test it. -/
def near (t j : Int) : Bool := decide (t - timeUs 200 < j ∧ j < t + timeUs 200)

/-- Further than 200us from `t`, as the warnings test it. -/
def far (t j : Int) : Bool := decide (t - timeUs 200 > j ∨ j > t + timeUs 200)

/-- What a check leaves behind. -/
structure Checked where
  /-- the last pulse seen -/
  pulse : Nat
  /-- a `WARN_ON` has fired -/
  warn : Bool
  /-- the result, where there is one -/
  result : Bool
  deriving DecidableEq

/-- `wait_for_hard_sector_trkstart`. -/
def waitForHardSectorTrkstart (stamp : Nat → BitVec 32) (n : Nat) (sectorDuration : Int)
    (sectors : Nat) : Checked :=
  let half := sectorDuration.tdiv 2
  let n := (searchPeriod stamp (near sectorDuration) 3 0 n).2
  let (i, n) := searchPeriod stamp (near half) (sectors + 1) 0 n
  { pulse := n + 1, warn := far half (getIndexPeriod stamp n), result := i == sectors }

/-- The loop of `check_hard_sector_indexes`, with `k` turns left. -/
def checkFull (stamp : Nat → BitVec 32) (sectorDuration : Int) : Nat → Checked → Checked
  | 0, c => c
  | k + 1, c =>
    checkFull stamp sectorDuration k
      { c with
        pulse := c.pulse + 1
        warn := c.warn || far sectorDuration (getIndexPeriod stamp c.pulse) }

/-- `check_hard_sector_indexes`. -/
def checkHardSectorIndexes (stamp : Nat → BitVec 32) (n : Nat) (sectorDuration : Int)
    (sectors : Nat) : Checked :=
  let half := sectorDuration.tdiv 2
  let c : Checked := { pulse := n, warn := false, result := true }
  let c := checkFull stamp sectorDuration (sectors - 1) c
  { pulse := c.pulse + 2
    warn := c.warn || far half (getIndexPeriod stamp c.pulse) ||
      far half (getIndexPeriod stamp (c.pulse + 1))
    result := true }

/-! ## The search loops -/

section Search

variable {stamp : Nat → BitVec 32} {test : Int → Bool}

/-- A loop ends with the first period that passes the test, or after its last turn. -/
theorem searchPeriod_cases (stamp : Nat → BitVec 32) (test : Int → Bool) (k i n : Nat) :
    (∃ m, m < k ∧ test (getIndexPeriod stamp (n + m)) = true ∧
      (∀ l, l < m → test (getIndexPeriod stamp (n + l)) = false) ∧
      searchPeriod stamp test k i n = (i + m, n + m + 1)) ∨
    (∀ l, l < k → test (getIndexPeriod stamp (n + l)) = false) ∧
      searchPeriod stamp test k i n = (i + k, n + k) := by
  induction k generalizing i n with
  | zero => exact .inr ⟨fun l hl => absurd hl (Nat.not_lt_zero l), rfl⟩
  | succ k ih =>
    have hskip : ∀ l, n + 1 + l = n + (l + 1) := fun l => by omega
    cases hhere : test (getIndexPeriod stamp n) with
    | true =>
      refine .inl ⟨0, k.succ_pos, hhere, fun l hl => absurd hl (Nat.not_lt_zero l), ?_⟩
      rw [searchPeriod, if_pos hhere]
      rfl
    | false =>
      have hrest : ∀ m, (∀ l, l < m → test (getIndexPeriod stamp (n + 1 + l)) = false) →
          ∀ l, l < m + 1 → test (getIndexPeriod stamp (n + l)) = false := by
        intro m hm l hl
        cases l with
        | zero => exact hhere
        | succ l =>
          rw [← hskip]
          exact hm l (Nat.lt_of_succ_lt_succ hl)
      rw [searchPeriod, if_neg (by simp [hhere])]
      rcases ih (i + 1) (n + 1) with ⟨m, hm, hfound, hfirst, heq⟩ | ⟨hnone, heq⟩
      · refine .inl ⟨m + 1, Nat.succ_lt_succ hm, ?_, hrest m hfirst, ?_⟩
        · rw [← hskip]
          exact hfound
        · rw [heq, hskip, Nat.add_right_comm i 1 m]
          rfl
      · refine .inr ⟨hrest k hnone, ?_⟩
        rw [heq, hskip, Nat.add_right_comm i 1 k]
        rfl

/-- A loop of `k + 1` turns leaves `k` in the counter exactly if the search ended with the
last of them. -/
theorem searchPeriod_fst_eq {k n : Nat} :
    (searchPeriod stamp test (k + 1) 0 n).1 = k ↔
      test (getIndexPeriod stamp (n + k)) = true ∧
        ∀ l, l < k → test (getIndexPeriod stamp (n + l)) = false := by
  rcases searchPeriod_cases stamp test (k + 1) 0 n with
    ⟨m, hm, hfound, hfirst, heq⟩ | ⟨hnone, heq⟩
  · rw [heq, Nat.zero_add]
    constructor
    · rintro rfl
      exact ⟨hfound, hfirst⟩
    · rintro ⟨hlast, hbefore⟩
      by_contra hne
      have hclash := hbefore m (by omega)
      rw [hfound] at hclash
      exact Bool.noConfusion hclash
  · rw [heq]
    constructor
    · intro h
      omega
    · rintro ⟨hlast, -⟩
      rw [hnone k k.lt_succ_self] at hlast
      exact Bool.noConfusion hlast

end Search

/-! ## The result -/

section Wait

variable {stamp : Nat → BitVec 32} {n sectors : Nat} {sectorDuration : Int}

/-- The periods that the first loop looks at. -/
def leadIn (stamp : Nat → BitVec 32) (n : Nat) (sectorDuration : Int) : Nat :=
  if near sectorDuration (getIndexPeriod stamp n) then 1
  else if near sectorDuration (getIndexPeriod stamp (n + 1)) then 2
  else 3

theorem searchPeriod_leadIn :
    (searchPeriod stamp (near sectorDuration) 3 0 n).2 = n + leadIn stamp n sectorDuration := by
  rw [searchPeriod, searchPeriod, searchPeriod, searchPeriod, leadIn]
  split
  · rfl
  · split
    · rfl
    · split <;> rfl

/-- The second loop meets a half period in turn `i`. -/
def HalfAt (stamp : Nat → BitVec 32) (n : Nat) (sectorDuration : Int) (i : Nat) : Prop :=
  near (sectorDuration.tdiv 2)
    (getIndexPeriod stamp (n + leadIn stamp n sectorDuration + i)) = true

instance (i : Nat) : Decidable (HalfAt stamp n sectorDuration i) :=
  inferInstanceAs (Decidable (_ = _))

/-- The function returns `TRUE` if the only half period it met was the last one it looks at. -/
theorem waitForHardSectorTrkstart_result :
    (waitForHardSectorTrkstart stamp n sectorDuration sectors).result = true ↔
      HalfAt stamp n sectorDuration sectors ∧
        ∀ i, i < sectors → ¬ HalfAt stamp n sectorDuration i := by
  rw [waitForHardSectorTrkstart, searchPeriod_leadIn]
  simp only [beq_iff_eq, searchPeriod_fst_eq, HalfAt, Bool.not_eq_true]

/-- What the result should say: that there was no half period. -/
theorem waitForHardSectorTrkstart_result_iff :
    ((waitForHardSectorTrkstart stamp n sectorDuration sectors).result = true ↔
        ∀ i, i ≤ sectors → ¬ HalfAt stamp n sectorDuration i) ↔
      ∃ i, i < sectors ∧ HalfAt stamp n sectorDuration i := by
  rw [waitForHardSectorTrkstart_result]
  constructor
  · intro hclaim
    by_contra hno
    push Not at hno
    by_cases hlast : HalfAt stamp n sectorDuration sectors
    · exact hclaim.mp ⟨hlast, hno⟩ sectors le_rfl hlast
    · refine hlast (hclaim.mpr fun i hi => ?_).1
      rcases Nat.lt_or_eq_of_le hi with hlt | rfl
      · exact hno i hlt
      · exact hlast
  · rintro ⟨i, hi, hhalf⟩
    constructor
    · rintro ⟨-, hbefore⟩
      exact absurd hhalf (hbefore i hi)
    · intro hnone
      exact absurd hhalf (hnone i hi.le)

/-! ## Hard-sectored tracks -/

/-- The pulses of a hard-sectored disk: pulse 0 starts a track. -/
def HardSectored (stamp : Nat → BitVec 32) (sectorDuration : Int) (sectors : Nat) : Prop :=
  ∀ n, near (if n % (sectors + 1) < sectors - 1 then sectorDuration else sectorDuration.tdiv 2)
    (getIndexPeriod stamp n) = true

/-- A period is full or half, not both. -/
theorem near_exclusive {j : Int} (hlong : 4 * timeUs 200 < sectorDuration) :
    near sectorDuration j = true → near (sectorDuration.tdiv 2) j = false := by
  have hpos : 0 ≤ sectorDuration := by
    rw [timeUs, timeMhz] at hlong
    omega
  rw [near, near, decide_eq_true_eq, decide_eq_false_iff_not, Int.tdiv_eq_ediv_of_nonneg hpos]
  rw [timeUs, timeMhz] at *
  omega

theorem not_far_of_near {t j : Int} (h : near t j = true) : far t j = false := by
  rw [near, decide_eq_true_eq] at h
  rw [far, decide_eq_false_iff_not]
  omega

/-- Within a track. -/
theorem mod_track {k : Nat} (h : n % (sectors + 1) + k ≤ sectors) :
    (n + k) % (sectors + 1) = n % (sectors + 1) + k := by
  rw [← Nat.mod_add_mod, Nat.mod_eq_of_lt (by omega)]

/-- From one track to the next. -/
theorem mod_track_next (h : n % (sectors + 1) = sectors) : (n + 1) % (sectors + 1) = 0 := by
  rw [← Nat.mod_add_mod, h, Nat.mod_self]

namespace HardSectored

theorem full (h : HardSectored stamp sectorDuration sectors)
    (hn : n % (sectors + 1) < sectors - 1) :
    near sectorDuration (getIndexPeriod stamp n) = true := by
  have hnear := h n
  rwa [if_pos hn] at hnear

theorem half (h : HardSectored stamp sectorDuration sectors)
    (hn : sectors - 1 ≤ n % (sectors + 1)) :
    near (sectorDuration.tdiv 2) (getIndexPeriod stamp n) = true := by
  have hnear := h n
  rwa [if_neg (Nat.not_lt.mpr hn)] at hnear

theorem not_full (h : HardSectored stamp sectorDuration sectors)
    (hlong : 4 * timeUs 200 < sectorDuration)
    (hn : sectors - 1 ≤ n % (sectors + 1)) :
    near sectorDuration (getIndexPeriod stamp n) = false := by
  by_contra hnear
  have hclash := near_exclusive hlong (Bool.eq_true_of_not_eq_false hnear)
  rw [h.half hn] at hclash
  exact Bool.noConfusion hclash

/-- The first loop ends with a full period, wherever it is entered. -/
theorem exists_leadIn (h : HardSectored stamp sectorDuration sectors) (hsectors : 2 ≤ sectors)
    (hlong : 4 * timeUs 200 < sectorDuration) (n : Nat) :
    ∃ p, n + leadIn stamp n sectorDuration = p + 1 ∧ p % (sectors + 1) < sectors - 1 := by
  have hlt : n % (sectors + 1) < sectors + 1 := Nat.mod_lt _ (by omega)
  rcases Nat.lt_or_ge (n % (sectors + 1)) (sectors - 1) with hn | hn
  · refine ⟨n, ?_, hn⟩
    rw [leadIn, if_pos (h.full hn)]
  have hfirst : ¬ near sectorDuration (getIndexPeriod stamp n) = true := by
    rw [h.not_full hlong hn]
    exact Bool.false_ne_true
  rcases Nat.eq_or_lt_of_le (show n % (sectors + 1) ≤ sectors by omega) with hlast | hhalf
  · have hzero := mod_track_next hlast
    have hfull : (n + 1) % (sectors + 1) < sectors - 1 := by omega
    refine ⟨n + 1, ?_, hfull⟩
    rw [leadIn, if_neg hfirst, if_pos (h.full hfull)]
  · have hsecond : (n + 1) % (sectors + 1) = sectors := by
      rw [mod_track (by omega)]
      omega
    have hzero : (n + 2) % (sectors + 1) = 0 := mod_track_next hsecond
    refine ⟨n + 2, ?_, by omega⟩
    rw [leadIn, if_neg hfirst, h.not_full hlong (by omega), if_neg Bool.false_ne_true]

/-- On a hard-sectored disk the function ends at a track start, without a warning and
without having to say that it has not found it. -/
theorem wait_spec (h : HardSectored stamp sectorDuration sectors) (hsectors : 2 ≤ sectors)
    (hlong : 4 * timeUs 200 < sectorDuration) (n : Nat) :
    ∃ c, waitForHardSectorTrkstart stamp n sectorDuration sectors = c ∧ c.result = false ∧
      c.warn = false ∧ n < c.pulse ∧ c.pulse % (sectors + 1) = 0 := by
  obtain ⟨p, hlead, hp⟩ := h.exists_leadIn hsectors hlong n
  -- the first half period is `m` turns behind the full one that ended the first loop
  obtain ⟨m, hm⟩ : ∃ m, p % (sectors + 1) + (m + 1) = sectors - 1 :=
    ⟨sectors - 2 - p % (sectors + 1), by omega⟩
  have hturn : ∀ l, l ≤ m + 1 →
      (n + leadIn stamp n sectorDuration + l) % (sectors + 1) = p % (sectors + 1) + (l + 1) := by
    intro l hl
    rw [hlead, Nat.add_assoc, Nat.add_comm 1 l, mod_track (by omega)]
  have hhalf : HalfAt stamp n sectorDuration m := h.half (by rw [hturn m (by omega)]; omega)
  have hbefore : ∀ l, l < m → near (sectorDuration.tdiv 2)
      (getIndexPeriod stamp (n + leadIn stamp n sectorDuration + l)) = false := by
    intro l hl
    exact near_exclusive hlong (h.full (by rw [hturn l (by omega)]; omega))
  have hresult : (waitForHardSectorTrkstart stamp n sectorDuration sectors).result = false := by
    refine Bool.eq_false_of_not_eq_true fun htrue => ?_
    exact (waitForHardSectorTrkstart_result.mp htrue).2 m (by omega) hhalf
  refine ⟨_, rfl, hresult, ?_⟩
  rcases searchPeriod_cases stamp (near (sectorDuration.tdiv 2)) (sectors + 1) 0
    (n + leadIn stamp n sectorDuration) with ⟨f, hf, hfound, hfirst, heq⟩ | ⟨hnone, -⟩
  · obtain rfl : f = m := by
      rcases Nat.lt_trichotomy f m with hlt | hlt | hlt
      · rw [hbefore f hlt] at hfound
        exact Bool.noConfusion hfound
      · exact hlt
      · have hclash := hfirst m hlt
        rw [HalfAt] at hhalf
        rw [hhalf] at hclash
        exact Bool.noConfusion hclash
    have hlast : (n + leadIn stamp n sectorDuration + f + 1) % (sectors + 1) = sectors := by
      rw [Nat.add_assoc, hturn (f + 1) (by omega)]
      omega
    rw [waitForHardSectorTrkstart, searchPeriod_leadIn]
    simp only [heq]
    refine ⟨not_far_of_near (h.half (by omega)), by omega, mod_track_next hlast⟩
  · have hclash := hnone m (by omega)
    rw [HalfAt] at hhalf
    rw [hhalf] at hclash
    exact Bool.noConfusion hclash

/-- The full periods of a track pass. -/
theorem checkFull_spec (h : HardSectored stamp sectorDuration sectors) {k : Nat} {c : Checked}
    (hk : c.pulse % (sectors + 1) + k = sectors - 1) (hwarn : c.warn = false) :
    checkFull stamp sectorDuration k c = { c with pulse := c.pulse + k } := by
  induction k generalizing c with
  | zero => rfl
  | succ k ih =>
    have hnear := h.full (n := c.pulse) (by omega)
    have hnext : (c.pulse + 1) % (sectors + 1) = c.pulse % (sectors + 1) + 1 :=
      mod_track (by omega)
    rw [checkFull, ih (by simp only [hnext]; omega) (by rw [hwarn, not_far_of_near hnear]; rfl)]
    simp only [hwarn, not_far_of_near hnear, Bool.or_false, Checked.mk.injEq, and_true]
    omega

/-- From the start of a track, `check_hard_sector_indexes` does not warn, and ends at the
start of the next. -/
theorem check_spec (h : HardSectored stamp sectorDuration sectors) (hsectors : 2 ≤ sectors)
    (hn : n % (sectors + 1) = 0) :
    checkHardSectorIndexes stamp n sectorDuration sectors =
      { pulse := n + (sectors + 1), warn := false, result := true } := by
  have hmod : ∀ k, k ≤ sectors → (n + k) % (sectors + 1) = k := by
    intro k hk
    rw [mod_track (by omega), hn, Nat.zero_add]
  have hfirst := h.half (n := n + (sectors - 1)) (by rw [hmod _ (by omega)])
  have hsecond := h.half (n := n + (sectors - 1) + 1)
    (by rw [Nat.add_assoc, hmod _ (by omega)]; omega)
  rw [checkHardSectorIndexes, h.checkFull_spec (by rw [hn]; omega) rfl]
  simp only [not_far_of_near hfirst, not_far_of_near hsecond, Bool.or_false, Checked.mk.injEq,
    and_true]
  omega

end HardSectored

/-- The function does what its callers take it to do exactly if one of the first `sectors`
periods of its second loop is a half; on a hard-sectored disk it always does. -/
theorem waitForHardSectorTrkstart_correct (hsectors : 2 ≤ sectors)
    (hlong : 4 * timeUs 200 < sectorDuration) :
    (((waitForHardSectorTrkstart stamp n sectorDuration sectors).result = true ↔
        ∀ i, i ≤ sectors → ¬ HalfAt stamp n sectorDuration i) ↔
      ∃ i, i < sectors ∧ HalfAt stamp n sectorDuration i) ∧
    (HardSectored stamp sectorDuration sectors →
      ∃ c, waitForHardSectorTrkstart stamp n sectorDuration sectors = c ∧ c.result = false ∧
        c.warn = false ∧ n < c.pulse ∧ c.pulse % (sectors + 1) = 0) :=
  ⟨waitForHardSectorTrkstart_result_iff, fun h => h.wait_spec hsectors hlong n⟩

end Wait

theorem timeDiff_ofNat {g : Nat} (a : Nat) (hg : g < 2 ^ 31) :
    timeDiff (BitVec.ofNat 32 a) (BitVec.ofNat 32 (a + g)) = g := by
  have hsub : BitVec.ofNat 32 (a + g) - BitVec.ofNat 32 a = BitVec.ofNat 32 g := by
    rw [BitVec.ofNat_add, BitVec.add_comm, BitVec.add_sub_cancel]
  have hval : (BitVec.ofNat 32 g).toNat = g := by
    rw [BitVec.toNat_ofNat, Nat.mod_eq_of_lt (by omega)]
  rw [timeDiff, hsub, BitVec.toInt_eq_toNat_of_lt (by omega), hval]

/-- Pulses every 20 ms, and none in between. -/
def softStamp (n : Nat) : BitVec 32 := BitVec.ofNat 32 (180000 * n)

/-- A disk without half periods: the search runs to its end and the function says nothing. -/
theorem waitForHardSectorTrkstart_silent :
    ¬ ∀ (stamp : Nat → BitVec 32) (n sectors : Nat) (sectorDuration : Int), 2 ≤ sectors →
      4 * timeUs 200 < sectorDuration →
      ((waitForHardSectorTrkstart stamp n sectorDuration sectors).result = true ↔
        ∀ i, i ≤ sectors → ¬ HalfAt stamp n sectorDuration i) := by
  intro hclaim
  have hnone : ∀ i, i ≤ 10 → ¬ HalfAt softStamp 0 180000 i := by decide +kernel
  have htrue := (hclaim softStamp 0 10 180000 (by decide) (by decide)).mpr hnone
  have hfalse : (waitForHardSectorTrkstart softStamp 0 180000 10).result = false := by
    decide +kernel
  rw [hfalse] at htrue
  exact Bool.noConfusion htrue

/-- The pulses of a disk of ten sectors of 20 ms. -/
def tenSectorStamp (n : Nat) : BitVec 32 :=
  BitVec.ofNat 32 (1800000 * (n / 11) + min (180000 * (n % 11)) (180000 * 9 + 90000 * (n % 11 - 9)))

theorem hardSectored_tenSectorStamp : HardSectored tenSectorStamp 180000 10 := by
  intro n
  rw [getIndexPeriod, tenSectorStamp, tenSectorStamp]
  rcases Nat.lt_or_ge (n % 11) 9 with hfull | hhalf
  · rw [if_pos (show n % (10 + 1) < 10 - 1 from hfull), show 1800000 * ((n + 1) / 11) +
      min (180000 * ((n + 1) % 11)) (180000 * 9 + 90000 * ((n + 1) % 11 - 9)) =
        1800000 * (n / 11) + min (180000 * (n % 11)) (180000 * 9 + 90000 * (n % 11 - 9)) + 180000
      by omega, timeDiff_ofNat _ (by decide)]
    decide
  · rw [if_neg (show ¬ n % (10 + 1) < 10 - 1 from Nat.not_lt.mpr hhalf), show
      1800000 * ((n + 1) / 11) +
      min (180000 * ((n + 1) % 11)) (180000 * 9 + 90000 * ((n + 1) % 11 - 9)) =
        1800000 * (n / 11) + min (180000 * (n % 11)) (180000 * 9 + 90000 * (n % 11 - 9)) + 90000
      by omega, timeDiff_ofNat _ (by decide)]
    decide

/-- From any pulse of that disk the function gets to a track start. -/
theorem waitForHardSectorTrkstart_ten :
    (2 ≤ 10 ∧ 4 * timeUs 200 < 180000) ∧ HardSectored tenSectorStamp 180000 10 ∧
      ∃ c, waitForHardSectorTrkstart tenSectorStamp 4 180000 10 = c ∧ c.result = false ∧
        c.warn = false ∧ 4 < c.pulse ∧ c.pulse % 11 = 0 :=
  ⟨by decide, hardSectored_tenSectorStamp,
    (waitForHardSectorTrkstart_correct (by decide) (by decide)).2 hardSectored_tenSectorStamp⟩

end FlashFloppyTestbed.Floppy
