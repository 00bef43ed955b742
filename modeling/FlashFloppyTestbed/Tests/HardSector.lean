/-
  Tests/HardSector.lean --- the read/write test of `src/main.c` on a hard-sectored
  track.

  `mfm_hard_sector_rw_sector` finds the start of the track by its index pulses, counts
  them up to its sector, and writes there: a preamble, two sync words, random data.  It
  then reads the sector twice by the same pulses.  The track needs no formatting: from
  whatever was on it before, no test warns, and all sectors that were written read back
  (`HardTest.keeps`).

  The seeks between the two reads leave the track as it is and are left out.
-/
import FlashFloppyTestbed.Coder
import FlashFloppyTestbed.Disk.Ibm
import FlashFloppyTestbed.Floppy.HardSector
import FlashFloppyTestbed.Tests.Data

set_option autoImplicit false

namespace FlashFloppyTestbed

open FlashFloppyTestbed.Foundation FlashFloppyTestbed.Floppy

/-! ## The buffer -/

/-- The bitcell buffer of the test, at `p`. -/
def hardSectorBuffer (m : Mem) (p : Nat) (data : List Byte) (terminateAtIndex : BitVec 32) :
    Mem × Write :=
  let sz := data.length
  let m := (List.range 6).foldl (fun m i => m.st16 (p + 2 * i) (htobe16 0xaaaa)) m
  let m := m.st16 (p + 2 * 6) (htobe16 syncWord)
  let m := m.st16 (p + 2 * 7) (htobe16 syncWord)
  let m := m.stBytes (p + 2 * 8) data
  let m := binToMfm m (p + 2 * 8) sz
  let m := m.st16 (p + 2 * (8 + sz)) (htobe16 0xaaaa)
  let m := m.st16 (p + 2 * (8 + sz + 1)) (htobe16 0xaaaa)
  (m, ⟨p, sz + 10, terminateAtIndex, 0, 0⟩)

/-- The words of the preamble and of the sync mark. -/
def hardSectorLead : List (BitVec 16) := List.replicate 6 0xaaaa ++ [syncWord, syncWord]

/-- The words of a sector. -/
def hardSectorWords (data : List Byte) : List (BitVec 16) :=
  hardSectorLead ++ (mfmWords true data ++ [0xaaaa, 0xaaaa])

@[simp] theorem length_hardSectorWords (data : List Byte) :
    (hardSectorWords data).length = data.length + 10 := by
  rw [hardSectorWords, List.length_append, List.length_append, length_mfmWords]
  simp only [hardSectorLead, List.length_append, List.length_replicate, List.length_cons,
    List.length_nil]
  omega

theorem Mem.words_add (m : Mem) (a n k : Nat) :
    m.words a (n + k) = m.words a n ++ m.words (a + 2 * n) k := by
  rw [Mem.words, Mem.words, Mem.words, List.range_add, List.map_append, List.map_map]
  refine congrArg (_ ++ ·) (List.map_congr_left fun i _ => ?_)
  rw [Function.comp_apply]
  congr 1
  omega

/-- **The buffer holds the words of the sector.** -/
theorem hardSectorBuffer_words (m : Mem) (p : Nat) (data : List Byte) (x : BitVec 32) :
    (hardSectorBuffer m p data x).1.words p (data.length + 10) = hardSectorWords data := by
  obtain ⟨sz, hsz⟩ : ∃ sz, sz = data.length := ⟨_, rfl⟩
  -- the preamble and the sync mark, then the data, then the conversion
  obtain ⟨m₁, hm₁⟩ : ∃ m₁, m₁ = (((List.range 6).foldl
      (fun m i => m.st16 (p + 2 * i) (htobe16 0xaaaa)) m).st16 (p + 2 * 6)
        (htobe16 syncWord)).st16 (p + 2 * 7) (htobe16 syncWord) := ⟨_, rfl⟩
  obtain ⟨m₂, hm₂⟩ : ∃ m₂, m₂ = m₁.stBytes (p + 2 * 8) data := ⟨_, rfl⟩
  obtain ⟨m₃, hm₃⟩ : ∃ m₃, m₃ = binToMfm m₂ (p + 2 * 8) sz := ⟨_, rfl⟩
  have hbuffer : (hardSectorBuffer m p data x).1 =
      (m₃.st16 (p + 2 * (8 + sz)) (htobe16 0xaaaa)).st16 (p + 2 * (8 + sz + 1))
        (htobe16 0xaaaa) := by
    rw [hm₃, hm₂, hm₁, hsz]
    rfl
  have hlead : m₁.words p 8 = hardSectorLead := by
    rw [hm₁]
    simp only [List.range, List.range.loop, List.foldl_cons, List.foldl_nil,
      Mem.words_st16_htobe16]
    rfl
  have hdata : m₃.words (p + 2 * 8) sz = mfmWords true data := by
    have hlast : m₂ (p + 2 * 8 - 1) = 0x89 := by
      rw [hm₂, Mem.stBytes_of_lt _ _ (by omega), hm₁, show p + 2 * 8 - 1 = p + 2 * 7 + 1 by omega]
      simp [Mem.st16, Mem.stBytes, syncWord, htobe16, rev16]
    rw [hm₃, binToMfm_words, hlast, hm₂, hsz, Mem.bytes_stBytes]
    rfl
  have hkeep : m₃.words p 8 = hardSectorLead := by
    rw [← hlead, hm₃, hm₂]
    refine Mem.words_congr fun i hlo hhi => ?_
    rw [binToMfm_frame _ _ _ (.inl (by omega)), Mem.stBytes_of_lt _ _ (by omega)]
  rw [hbuffer, ← hsz, show sz + 10 = 8 + (sz + 2) by omega, Mem.words_st16_htobe16,
    Mem.words_st16_htobe16, Mem.words_add, Mem.words_add, hkeep, hdata, hardSectorWords]
  have hset : ∀ (tail : List (BitVec 16)) (j : Nat) (v : BitVec 16),
      (hardSectorLead ++ (mfmWords true data ++ tail)).set (8 + sz + j) v =
        hardSectorLead ++ (mfmWords true data ++ tail.set j v) := by
    intro tail j v
    have hlead8 : hardSectorLead.length = 8 := rfl
    have hlen : (mfmWords true data).length = sz := by rw [length_mfmWords, hsz]
    rw [List.set_append_right _ _ (by omega), List.set_append_right _ _ (by omega)]
    congr 3
    omega
  have hfirst : ∀ tail v, (hardSectorLead ++ (mfmWords true data ++ tail)).set (8 + sz) v =
      hardSectorLead ++ (mfmWords true data ++ tail.set 0 v) := fun tail v => hset tail 0 v
  rw [hfirst, hset]
  rfl

/-- The bitcells that are written. -/
theorem hardSectorBuffer_bits (m : Mem) (p : Nat) (data : List Byte) (x : BitVec 32) :
    (hardSectorBuffer m p data x).2.bits (hardSectorBuffer m p data x).1 =
      (hardSectorWords data).flatMap bitsOf := by
  rw [← hardSectorBuffer_words m p data x, Mem.words_flatMap_bitsOf]
  rfl

/-! ## Writes over a revolution -/

namespace Disk

variable {d : Disk} {t t' n : Nat} {l : List Bool}

/-- What was written is there. -/
theorem stream_splice {i : Nat} (ht : t' % d.size = t % d.size + i) (hin : i + n ≤ l.length)
    (hfit : t % d.size + l.length ≤ d.size) :
    (d.splice t l).stream t' n = (l.drop i).take n := by
  apply List.ext_getElem
  · rw [length_stream, List.length_take, List.length_drop]
    omega
  · intro j h₁ h₂
    rw [length_stream] at h₁
    have hget : ((d.splice t l).stream t' n)[j] =
        l.getD (((t' + j) % d.size + d.size - t % d.size) % d.size) (d.cells ((t' + j) % d.size)) :=
      getElem_window _ _ _ _ _ _
    have hmod : (t' + j) % d.size = t % d.size + (i + j) := by
      rw [← Nat.mod_add_mod, ht, Nat.add_assoc, Nat.mod_eq_of_lt (by omega)]
    rw [hget, hmod, show t % d.size + (i + j) + d.size - t % d.size = i + j + d.size by omega,
      Nat.add_mod_right, Nat.mod_eq_of_lt (by omega), List.getElem_take, List.getElem_drop,
      List.getD_eq_getElem?_getD, List.getElem?_eq_getElem (by omega), Option.getD_some]

/-- What is elsewhere stays. -/
theorem stream_splice_of_disjoint (hin : t' % d.size + n ≤ d.size)
    (happart : t' % d.size + n ≤ t % d.size ∨ t % d.size + l.length ≤ t' % d.size)
    (hfit : t % d.size + l.length ≤ d.size) :
    (d.splice t l).stream t' n = d.stream t' n := by
  rw [stream, stream, window, window, List.map_inj_left]
  intro j hj
  rw [List.mem_range] at hj
  show l.getD (((t' + j) % d.size + d.size - t % d.size) % d.size) (d.cells ((t' + j) % d.size)) = _
  have hmod : (t' + j) % d.size = t' % d.size + j := by
    rw [← Nat.mod_add_mod, Nat.mod_eq_of_lt (by omega)]
  rw [hmod]
  refine List.getD_eq_default _ _ ?_
  rcases happart with h | h
  · rw [Nat.mod_eq_of_lt (by omega)]
    omega
  · rw [show t' % d.size + j + d.size - t % d.size = t' % d.size + j - t % d.size + d.size by omega,
      Nat.add_mod_right, Nat.mod_eq_of_lt (by omega)]
    omega

end Disk

/-! ## Reading a sector -/

/-- No mark begins within the preamble. -/
theorem hardSectorLead_first : ∀ i, i < 96 →
    (((hardSectorLead.flatMap bitsOf).drop i).take 32) ≠ mfmSync := by
  decide +kernel

/-- **A read that starts in the preamble** delivers the data. -/
theorem Disk.read_hardSector {d : Disk} {t t' : Nat} {data : List Byte} (hsize : 0 < d.size)
    (hlead : t ≤ t') (hlate : t' ≤ t + 96)
    (hwritten : d.stream t (16 * (data.length + 10)) = (hardSectorWords data).flatMap bitsOf)
    (m : Mem) (p : Nat) :
    ∃ m', d.floppyRead m p (data.length + 2) t' = some (m', t + 96) ∧
      (mfmToBin m' p (data.length + 2)).bytes (p + 2) data.length = data := by
  -- the words of the preamble, and those that the read delivers
  have hlead' : d.stream t 128 = hardSectorLead.flatMap bitsOf := by
    rw [← Disk.take_stream d t (show 128 ≤ 16 * (data.length + 10) by omega), hwritten,
      hardSectorWords, List.flatMap_append, List.take_left' (by rw [length_flatMap_bitsOf]; rfl)]
  have hread : d.stream (t + 96) (16 * (data.length + 2)) =
      (syncWord :: syncWord :: mfmWords true data).flatMap bitsOf := by
    have hdrop := Disk.drop_stream d t (show 96 ≤ 16 * (data.length + 10) by omega)
    rw [← Disk.take_stream d (t + 96) (show 16 * (data.length + 2) ≤ 16 * (data.length + 10) - 96
      by omega), ← hdrop, hwritten]
    have hsplit : hardSectorWords data = List.replicate 6 0xaaaa ++
        ((syncWord :: syncWord :: mfmWords true data) ++ [0xaaaa, 0xaaaa]) := rfl
    rw [hsplit, List.flatMap_append, List.drop_left' (by rw [length_flatMap_bitsOf]; rfl),
      List.flatMap_append, List.take_left' (by
        rw [length_flatMap_bitsOf, List.length_cons, List.length_cons, length_mfmWords])]
  have hfind : d.findSync t' = some (t + 96) := by
    refine Disk.findSync_eq ?_ hlate (fun o' hlo hhi hsync => ?_) hsize
    · have hmark := congrArg (List.take 32) hread
      rw [Disk.take_stream d _ (by omega)] at hmark
      rw [Disk.SyncAt, hmark, List.flatMap_cons, List.flatMap_cons, ← List.append_assoc,
        List.take_left' (by simp)]
      rfl
    · refine hardSectorLead_first (o' - t) (by omega) ?_
      rw [← hlead', Disk.drop_stream d t (by omega), Disk.take_stream d _ (by omega),
        Nat.add_sub_of_le (by omega)]
      exact hsync
  refine ⟨_, by rw [Disk.floppyRead, hfind]; rfl, ?_⟩
  have hwords : (m.stBits p (d.stream (t + 96) (16 * (data.length + 2)))).words p
      (data.length + 2) = syncWord :: syncWord :: mfmWords true data := by
    have hst := Mem.words_stBits m p (syncWord :: syncWord :: mfmWords true data)
    rw [← hread] at hst
    simpa using hst
  have hbytes := mfmToBin_bytes (m.stBits p (d.stream (t + 96) (16 * (data.length + 2)))) p
    (data.length + 2)
  rw [hwords, List.map_cons, List.map_cons, map_mfmtobin_mfmWords] at hbytes
  rw [Mem.bytes_sub _ p (data.length + 2) 2 data.length (by omega), hbytes]
  exact List.take_length

/-! ## The test -/

/-- A hard-sectored revolution, in bitcells. -/
structure HardTrack where
  sectors : Nat
  /-- from the index pulse of one sector to that of the next -/
  length : Nat

namespace HardTrack

def size (h : HardTrack) : Nat := h.sectors * h.length

/-- The position of index pulse `n`: one for each sector, and another one half way through
the last. -/
def pulseAt (h : HardTrack) (n : Nat) : Nat :=
  let i := n % (h.sectors + 1)
  h.size * (n / (h.sectors + 1)) +
    if i < h.sectors then i * h.length else (h.sectors - 1) * h.length + h.length / 2

end HardTrack

/-- What a run of the test meets: the memory, the buffer, the times of the index pulses, the
last pulse seen when each of the three waits begins, and by how much the write and the reads
are behind the pulse of their sector. -/
structure HardEnv where
  mem : Mem
  bc : Nat
  stamp : Nat → BitVec 32
  pulses : Nat × Nat × Nat
  writeDelay : Nat
  readDelays : Nat × Nat

/-- `mfm_hard_sector_rw_sector(trk, sector, sz, sector_duration, nsect)`: the write is cut off
at the pulse that `wr.terminate_at_index` counts to. -/
def mfmHardSectorRwSector (h : HardTrack) (e : HardEnv) (d : Disk) (seed : BitVec 32)
    (sector sz : Nat) (sectorDuration : Int) (nsect : Nat) : Option TestResult := do
  let p := randWords (sz / 4) seed
  let w := hardSectorBuffer e.mem e.bc p.1 (if sector = nsect - 1 then 2 else 1)
  let c₀ := waitForHardSectorTrkstart e.stamp e.pulses.1 sectorDuration nsect
  let n := c₀.pulse + sector
  let t := h.pulseAt n + e.writeDelay
  let d := d.splice t ((w.2.bits w.1).take (h.pulseAt (n + w.2.terminateAtIndex.toNat) - t))
  let c₁ := waitForHardSectorTrkstart e.stamp e.pulses.2.1 sectorDuration nsect
  let q₁ ← d.floppyRead w.1 e.bc (sz + 2) (h.pulseAt (c₁.pulse + sector) + e.readDelays.1)
  let m₁ := mfmToBin q₁.1 e.bc (sz + 2)
  let c₂ := waitForHardSectorTrkstart e.stamp e.pulses.2.2 sectorDuration nsect
  let q₂ ← d.floppyRead m₁ e.bc (sz + 2) (h.pulseAt (c₂.pulse + sector) + e.readDelays.2)
  let m₂ := mfmToBin q₂.1 e.bc (sz + 2)
  some
    { disk := d
      seed := p.2
      warned := c₀.warn || c₀.result || c₁.warn || c₁.result ||
        decide (p.1 ≠ m₁.bytes (e.bc + 2) sz) || c₂.warn || c₂.result ||
        decide (p.1 ≠ m₂.bytes (e.bc + 2) sz) }

/-- What the test relies on: the index pulses of the track come when they should, the write
fits its sector, and the reads begin while the preamble goes by. -/
structure HardEnv.Good (e : HardEnv) (h : HardTrack) (sz : Nat) (sectorDuration : Int) : Prop where
  pulses : HardSectored e.stamp sectorDuration h.sectors
  room : e.writeDelay + 16 * (sz + 10) ≤ h.length
  first : e.writeDelay ≤ e.readDelays.1 ∧ e.readDelays.1 ≤ e.writeDelay + 96
  second : e.writeDelay ≤ e.readDelays.2 ∧ e.readDelays.2 ≤ e.writeDelay + 96

namespace HardTrack

variable {h : HardTrack} {n k : Nat}

theorem pulseAt_sector (hn : n % (h.sectors + 1) = k) (hk : k < h.sectors) :
    h.pulseAt n = h.size * (n / (h.sectors + 1)) + k * h.length := by
  rw [pulseAt, hn]
  simp only [if_pos hk]

/-- The sector ends at the pulse that its write is cut off at. -/
theorem pulseAt_end (hn : n % (h.sectors + 1) = k) (hk : k < h.sectors) :
    h.pulseAt (n + if k = h.sectors - 1 then 2 else 1) = h.pulseAt n + h.length := by
  have hdecomp := Nat.div_add_mod n (h.sectors + 1)
  rw [hn] at hdecomp
  rw [pulseAt_sector hn hk]
  by_cases hlast : k = h.sectors - 1
  · have hnext : n + 2 = (h.sectors + 1) * (n / (h.sectors + 1) + 1) := by
      rw [Nat.mul_succ]
      omega
    rw [if_pos hlast, hnext, pulseAt_sector (Nat.mul_mod_right _ _) (by omega),
      Nat.mul_div_cancel_left _ (Nat.succ_pos _), Nat.mul_succ, Nat.zero_mul, Nat.add_zero,
      Nat.add_assoc]
    congr 1
    rw [size, hlast]
    conv => lhs; rw [show h.sectors = h.sectors - 1 + 1 by omega, Nat.succ_mul]
  · have hmod : (n + 1) % (h.sectors + 1) = k + 1 := by
      rw [← Nat.mod_add_mod, hn, Nat.mod_eq_of_lt (by omega)]
    have hdiv : (n + 1) / (h.sectors + 1) = n / (h.sectors + 1) := by
      have hdecomp' := Nat.div_add_mod (n + 1) (h.sectors + 1)
      rw [hmod] at hdecomp'
      exact Nat.eq_of_mul_eq_mul_left (show 0 < h.sectors + 1 by omega) (by omega)
    rw [if_neg hlast, pulseAt_sector hmod (by omega), hdiv, Nat.succ_mul, Nat.add_assoc]

/-- A position behind the pulse of a sector. -/
theorem pulseAt_mod (hn : n % (h.sectors + 1) = k) (hk : k < h.sectors) {δ : Nat}
    (hδ : δ < h.length) : (h.pulseAt n + δ) % h.size = k * h.length + δ := by
  have hin : k * h.length + h.length ≤ h.size := by
    rw [← Nat.succ_mul]
    exact Nat.mul_le_mul_right _ hk
  rw [pulseAt_sector hn hk, Nat.add_assoc, Nat.mul_add_mod, Nat.mod_eq_of_lt (by omega)]

/-- Different sectors are apart. -/
theorem apart {j : Nat} (hjk : j ≠ k) {a b : Nat} (ha : a ≤ h.length) (hb : b ≤ h.length) :
    j * h.length + a ≤ k * h.length ∨ k * h.length + b ≤ j * h.length := by
  rcases Nat.lt_or_gt_of_ne hjk with hlt | hlt
  · have hle : (j + 1) * h.length ≤ k * h.length := Nat.mul_le_mul_right _ hlt
    rw [Nat.succ_mul] at hle
    exact .inl (by omega)
  · have hle : (k + 1) * h.length ≤ j * h.length := Nat.mul_le_mul_right _ hlt
    rw [Nat.succ_mul] at hle
    exact .inr (by omega)

end HardTrack

/-- The sectors of a track, by their contents and by how far behind their index pulses they
were written. -/
abbrev Written := Nat → Option (Nat × List Byte)

/-- The track holds what was written. -/
def Disk.Holds (d : Disk) (h : HardTrack) (written : Written) : Prop :=
  ∀ k δ data, k < h.sectors → written k = some (δ, data) →
    δ + 16 * (data.length + 10) ≤ h.length ∧ ∀ t, t % d.size = k * h.length + δ →
      d.stream t (16 * (data.length + 10)) = (hardSectorWords data).flatMap bitsOf

section Test

variable {h : HardTrack} {e : HardEnv} {d : Disk} {k sz : Nat} {sectorDuration : Int}
  {written : Written}

/-- A write into one sector leaves the others. -/
theorem Disk.Holds.write (hd : d.Holds h written) (hsize : d.size = h.size) (hk : k < h.sectors)
    {δ t : Nat} {data : List Byte} (ht : t % d.size = k * h.length + δ)
    (hroom : δ + 16 * (data.length + 10) ≤ h.length) :
    (d.splice t ((hardSectorWords data).flatMap bitsOf)).Holds h
      (Function.update written k (some (δ, data))) := by
  have hin : ∀ j, j < h.sectors → j * h.length + h.length ≤ d.size := by
    intro j hj
    rw [hsize, ← Nat.succ_mul]
    exact Nat.mul_le_mul_right _ hj
  have hlen : ∀ data : List Byte, ((hardSectorWords data).flatMap bitsOf).length =
      16 * (data.length + 10) := by
    intro data
    rw [length_flatMap_bitsOf, length_hardSectorWords]
  have hink := hin k hk
  intro j δ' data' hj hwritten
  by_cases hjk : j = k
  · subst hjk
    rw [Function.update_self] at hwritten
    obtain ⟨rfl, rfl⟩ := Prod.mk.inj (Option.some.inj hwritten)
    refine ⟨hroom, fun t' ht' => ?_⟩
    have ht' : t' % d.size = j * h.length + δ := ht'
    rw [Disk.stream_splice (i := 0) (by omega) (by rw [hlen]; omega) (by rw [hlen]; omega),
      List.drop_zero, List.take_of_length_le (by rw [hlen])]
  · rw [Function.update_of_ne hjk] at hwritten
    obtain ⟨hroom', hholds⟩ := hd j δ' data' hj hwritten
    refine ⟨hroom', fun t' ht' => ?_⟩
    have ht' : t' % d.size = j * h.length + δ' := ht'
    have hinj := hin j hj
    have happart := HardTrack.apart hjk hroom' hroom
    rw [Disk.stream_splice_of_disjoint (by omega) (by rw [hlen]; omega) (by rw [hlen]; omega)]
    exact hholds t' ht'

/-- **One run of the test**: the sector holds the random data, and nothing warns. -/
theorem mfmHardSectorRwSector_spec (hsectors : 2 ≤ h.sectors)
    (hlong : 4 * timeUs 200 < sectorDuration) (hsize : d.size = h.size) (hd : d.Holds h written)
    (hk : k < h.sectors) (hsz : sz % 4 = 0) (hgood : e.Good h sz sectorDuration)
    (seed : BitVec 32) :
    ∃ r, mfmHardSectorRwSector h e d seed k sz sectorDuration h.sectors = some r ∧
      r.warned = false ∧ r.seed = (randWords (sz / 4) seed).2 ∧ r.disk.size = h.size ∧
      r.disk.Holds h (Function.update written k
        (some (e.writeDelay, (randWords (sz / 4) seed).1))) := by
  obtain ⟨data, hdata⟩ : ∃ data, data = (randWords (sz / 4) seed).1 := ⟨_, rfl⟩
  obtain rfl : sz = data.length := by
    rw [hdata, length_randWords]
    omega
  have hroom := hgood.room
  obtain ⟨hlo₁, hhi₁⟩ := hgood.first
  obtain ⟨hlo₂, hhi₂⟩ := hgood.second
  -- the waits end at a track start, and the counts at the pulse of the sector
  have hwait : ∀ n, ∃ c, waitForHardSectorTrkstart e.stamp n sectorDuration h.sectors = c ∧
      c.warn = false ∧ c.result = false ∧ (c.pulse + k) % (h.sectors + 1) = k := by
    intro n
    obtain ⟨c, hc, hresult, hwarn, -, hpulse⟩ := hgood.pulses.wait_spec hsectors hlong n
    refine ⟨c, hc, hwarn, hresult, ?_⟩
    rw [mod_track (by omega), hpulse, Nat.zero_add]
  obtain ⟨c₀, hc₀, hwarn₀, hresult₀, hn₀⟩ := hwait e.pulses.1
  obtain ⟨c₁, hc₁, hwarn₁, hresult₁, hn₁⟩ := hwait e.pulses.2.1
  obtain ⟨c₂, hc₂, hwarn₂, hresult₂, hn₂⟩ := hwait e.pulses.2.2
  -- the write is not cut off
  obtain ⟨x, hx⟩ : ∃ x : BitVec 32, x = if k = h.sectors - 1 then 2 else 1 := ⟨_, rfl⟩
  have hend : h.pulseAt (c₀.pulse + k + x.toNat) = h.pulseAt (c₀.pulse + k) + h.length := by
    rw [← HardTrack.pulseAt_end hn₀ hk, hx]
    congr 2
    split <;> rfl
  obtain ⟨d', hd'⟩ : ∃ d', d' = d.splice (h.pulseAt (c₀.pulse + k) + e.writeDelay)
      ((hardSectorWords data).flatMap bitsOf) := ⟨_, rfl⟩
  have hwhole : d.splice (h.pulseAt (c₀.pulse + k) + e.writeDelay)
      (((hardSectorBuffer e.mem e.bc data x).2.bits (hardSectorBuffer e.mem e.bc data x).1).take
        (h.pulseAt (c₀.pulse + k + x.toNat) - (h.pulseAt (c₀.pulse + k) + e.writeDelay))) =
      d' := by
    rw [hd', hardSectorBuffer_bits, List.take_of_length_le]
    rw [length_flatMap_bitsOf, length_hardSectorWords, hend]
    omega
  -- the reads
  have hsize' : d'.size = h.size := by
    rw [hd']
    exact hsize
  have hholds : d'.Holds h (Function.update written k (some (e.writeDelay, data))) := by
    rw [hd']
    exact hd.write hsize hk (by rw [hsize]; exact HardTrack.pulseAt_mod hn₀ hk (by omega)) hroom
  have hread : ∀ n (m : Mem) δ, n % (h.sectors + 1) = k → e.writeDelay ≤ δ →
      δ ≤ e.writeDelay + 96 → ∃ q, d'.floppyRead m e.bc (data.length + 2) (h.pulseAt n + δ) =
        some q ∧ (mfmToBin q.1 e.bc (data.length + 2)).bytes (e.bc + 2) data.length = data := by
    intro n m δ hn hlo hhi
    have hpos : 0 < h.size := Nat.mul_pos (by omega) (by omega)
    have hstream := (hholds k e.writeDelay data hk (Function.update_self ..)).2
      (h.pulseAt n + e.writeDelay)
      (by rw [hsize']; exact HardTrack.pulseAt_mod hn hk (by omega))
    obtain ⟨m', hrd, hbytes⟩ := Disk.read_hardSector (by rw [hsize']; exact hpos)
      (show _ ≤ h.pulseAt n + δ by omega) (by omega) hstream m e.bc
    exact ⟨_, hrd, hbytes⟩
  obtain ⟨q₁, hq₁, hbytes₁⟩ := hread (c₁.pulse + k) (hardSectorBuffer e.mem e.bc data x).1
    e.readDelays.1 hn₁ hlo₁ hhi₁
  obtain ⟨q₂, hq₂, hbytes₂⟩ := hread (c₂.pulse + k) (mfmToBin q₁.1 e.bc (data.length + 2))
    e.readDelays.2 hn₂ hlo₂ hhi₂
  refine ⟨⟨d', (randWords (data.length / 4) seed).2, false⟩, ?_, rfl, rfl, hsize', ?_⟩
  · have hterm : (hardSectorBuffer e.mem e.bc data x).2.terminateAtIndex = x := rfl
    rw [mfmHardSectorRwSector, ← hdata, ← hx]
    simp only [hterm, hc₀, hc₁, hc₂, hwhole, hq₁, hq₂, hbytes₁, hbytes₂, hwarn₀, hwarn₁, hwarn₂,
      hresult₀, hresult₁, hresult₂, Option.bind_eq_bind, Option.bind_some, ne_eq,
      not_true_eq_false, decide_false, Bool.or_false]
  · rw [← hdata]
    exact hholds

end Test

/-! ## Runs of the test -/

/-- What a sequence of tests works on and leaves behind. -/
structure HardState where
  disk : Disk
  written : Written
  seed : BitVec 32
  warned : Bool

/-- A test of one of the sectors. -/
inductive HardTest (h : HardTrack) (sectorDuration : Int) : HardState → HardState → Prop where
  | test {e : HardEnv} {st : HardState} {k sz : Nat} {r : TestResult} :
      k < h.sectors → sz % 4 = 0 → e.Good h sz sectorDuration →
      mfmHardSectorRwSector h e st.disk st.seed k sz sectorDuration h.sectors = some r →
      HardTest h sectorDuration st
        ⟨r.disk, Function.update st.written k
          (some (e.writeDelay, (randWords (sz / 4) st.seed).1)), r.seed, st.warned || r.warned⟩

/-- What every sequence of tests keeps. -/
structure HardState.Kept (st : HardState) (h : HardTrack) : Prop where
  size : st.disk.size = h.size
  holds : st.disk.Holds h st.written
  silent : st.warned = false

theorem HardTest.keeps {h : HardTrack} {sectorDuration : Int} (hsectors : 2 ≤ h.sectors)
    (hlong : 4 * timeUs 200 < sectorDuration) {st st' : HardState}
    (hstep : HardTest h sectorDuration st st') (hkept : st.Kept h) : st'.Kept h := by
  cases hstep with
  | @test e _ k sz r hk hsz hgood hrun =>
    obtain ⟨r', hrun', hwarned, -, hsize, hholds⟩ := mfmHardSectorRwSector_spec hsectors hlong
      hkept.size hkept.holds hk hsz hgood st.seed
    rw [hrun] at hrun'
    rw [← Option.some.inj hrun'] at hwarned hsize hholds
    exact ⟨hsize, hholds, by rw [hkept.silent, hwarned]; rfl⟩

/-- **The test of a hard-sectored track never cries wolf.**  Whatever was on the track at first,
and whatever sectors the test was run on since, in whatever order and with whatever sizes that
fit: no `WARN_ON` has fired; every sector that was written, read from within its preamble,
gives the random data last put there; and the test can be run once more, on any sector, without
a warning. -/
theorem mfm_hard_sector_rw_sector_silent {h : HardTrack} {sectorDuration : Int}
    (hsectors : 2 ≤ h.sectors) (hlong : 4 * timeUs 200 < sectorDuration) {d : Disk}
    (hsize : d.size = h.size) (seed : BitVec 32) {st : HardState}
    (hrun : Relation.ReflTransGen (HardTest h sectorDuration) ⟨d, fun _ => none, seed, false⟩ st) :
    st.warned = false ∧
    (∀ k δ data, k < h.sectors → st.written k = some (δ, data) →
      ∀ t t' m p, t % h.size = k * h.length + δ → t ≤ t' → t' ≤ t + 96 →
        ∃ m', st.disk.floppyRead m p (data.length + 2) t' = some (m', t + 96) ∧
          (mfmToBin m' p (data.length + 2)).bytes (p + 2) data.length = data) ∧
    ∀ (e : HardEnv) k sz, k < h.sectors → sz % 4 = 0 → e.Good h sz sectorDuration →
      ∃ r, mfmHardSectorRwSector h e st.disk st.seed k sz sectorDuration h.sectors = some r ∧
        r.warned = false := by
  have hkept : st.Kept h := run_invariant (P := fun st => st.Kept h)
    (fun _ _ hstep => hstep.keeps hsectors hlong) hrun
    ⟨hsize, fun _ _ _ _ hnone => absurd hnone (by simp), rfl⟩
  refine ⟨hkept.silent, fun k δ data hk hwritten t t' m p ht hlo hhi => ?_,
    fun e k sz hk hsz hgood => ?_⟩
  · obtain ⟨hroom, hstream⟩ := hkept.holds k δ data hk hwritten
    have hpos : 0 < h.size := Nat.mul_pos (by omega) (by omega)
    rw [hkept.size] at hstream
    exact Disk.read_hardSector (by rw [hkept.size]; exact hpos) hlo hhi (hstream t ht) m p
  · obtain ⟨r, hr, hwarned, -⟩ := mfmHardSectorRwSector_spec hsectors hlong hkept.size hkept.holds
      hk hsz hgood st.seed
    exact ⟨r, hr, hwarned⟩

/-- The last two sectors of a blank track of ten, written one after the other. -/
theorem mfm_hard_sector_rw_sector_silent_two :
    ∃ st : HardState, Relation.ReflTransGen (HardTest ⟨10, 10000⟩ 180000)
        ⟨⟨fun _ => false, 100000⟩, fun _ => none, 7, false⟩ st ∧
      (st.written 8).isSome ∧ (st.written 9).isSome ∧ st.warned = false := by
  obtain ⟨e, he⟩ : ∃ e : HardEnv, e =
      { mem := fun _ => 0, bc := 0, stamp := tenSectorStamp, pulses := (4, 25, 50),
        writeDelay := 30, readDelays := (40, 120) } := ⟨_, rfl⟩
  have hgood : e.Good ⟨10, 10000⟩ 512 180000 := by
    rw [he]
    exact ⟨hardSectored_tenSectorStamp, by decide, by decide, by decide⟩
  have hsilent := @mfm_hard_sector_rw_sector_silent ⟨10, 10000⟩ 180000 (by decide) (by decide)
    ⟨fun _ => false, 100000⟩ rfl 7
  obtain ⟨r, hr, -⟩ := (hsilent .refl).2.2 e 8 512 (by decide) (by decide) hgood
  have hone := Relation.ReflTransGen.single
    (HardTest.test (show 8 < 10 by decide) (show 512 % 4 = 0 by decide) hgood hr)
  obtain ⟨r', hr', -⟩ := (hsilent hone).2.2 e 9 512 (by decide) (by decide) hgood
  have htwo := hone.tail (HardTest.test (show 9 < 10 by decide) (by decide) hgood hr')
  exact ⟨_, htwo, rfl, rfl, (hsilent htwo).1⟩

end FlashFloppyTestbed
