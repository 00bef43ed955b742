/-
  Disk/AmigaCoder.lean --- the MFM encoder of `amiga_track_write` against `bin_to_mfm`.

  `emit_long` encodes 32 bitcells at a time, forwards, and carries one bit of the long
  before; `bin_to_mfm` encodes a byte at a time, backwards, from a table.  Emitted longs are
  what `bin_to_mfm` makes of their data bits, but for the syncs, which are patched in
  afterwards (`amiga_encoder_agrees`).
-/
import FlashFloppyTestbed.Coder
import FlashFloppyTestbed.Disk.AmigaRoundTrip

set_option autoImplicit false

namespace FlashFloppyTestbed

open FlashFloppyTestbed.Foundation FlashFloppyTestbed.Floppy

/-- `emit_raw(0x44894489)` or `emit_long(l)`. -/
def Emit.put (e : Emit) : AmigaLong → Emit
  | .sync => e.raw 0x44894489
  | .data l => e.long l

/-- The sync long, stored wherever a sync is among the longs from address `p` on. -/
def patchSyncs : Mem → Nat → List AmigaLong → Mem
  | m, _, [] => m
  | m, p, .sync :: xs => patchSyncs (m.st32 p (htobe32 0x44894489)) (p + 4) xs
  | m, p, .data _ :: xs => patchSyncs m (p + 4) xs

/-- Any sequence of longs is emitted behind the ones before it. -/
theorem Emit.Holds.puts {p : Nat} (ys : List AmigaLong) : ∀ {xs : List AmigaLong} {e : Emit},
    e.Holds p xs → (ys.foldl Emit.put e).Holds p (xs ++ ys) := by
  induction ys with
  | nil =>
    intro xs e h
    rw [List.append_nil]
    exact h
  | cons y ys ih =>
    intro xs e h
    have hput : (e.put y).Holds p (xs ++ [y]) := by
      cases y with
      | sync => exact h.emit .sync
      | data l => exact h.long l
    have hall := ih hput
    rw [List.append_assoc] at hall
    exact hall

theorem patchSyncs_of_lt (xs : List AmigaLong) : ∀ (m : Mem) (p : Nat) {a : Nat}, a < p →
    patchSyncs m p xs a = m a := by
  induction xs with
  | nil => exact fun _ _ _ _ => rfl
  | cons x xs ih =>
    intro m p a ha
    cases x with
    | sync =>
      rw [patchSyncs, ih _ _ (by omega)]
      exact Mem.st32_of_lt m _ ha
    | data l => rw [patchSyncs, ih _ _ (by omega)]

/-- The syncs are replaced, and nothing else is. -/
theorem patchSyncs_long (xs : List AmigaLong) : ∀ (m : Mem) (p k : Nat),
    (patchSyncs m p xs).long (p + 4 * k) =
      if xs[k]? = some .sync then syncLong else m.long (p + 4 * k) := by
  induction xs with
  | nil => exact fun _ _ _ => rfl
  | cons x xs ih =>
    intro m p k
    obtain _ | k := k
    · -- the patches behind the first long leave it alone
      have hfirst : ∀ m : Mem, (patchSyncs m (p + 4) xs).long p = m.long p := fun m =>
        Mem.long_congr fun a _ ha => patchSyncs_of_lt xs m (p + 4) ha
      have haddr : p + 4 * 0 = p := rfl
      rw [haddr]
      cases x with
      | sync =>
        rw [patchSyncs, hfirst, Mem.long_st32_htobe32]
        rfl
      | data l =>
        rw [patchSyncs, hfirst]
        rfl
    · have haddr : p + 4 * (k + 1) = p + 4 + 4 * k := by omega
      rw [List.getElem?_cons_succ, haddr]
      cases x with
      | sync => rw [patchSyncs, ih, Mem.long_st32_of_ne _ _ (by omega)]
      | data l => rw [patchSyncs, ih]

/-- The longs of a buffer of code words, before the syncs are patched in. -/
theorem longs_plain {m : Mem} {p : Nat} {xs : List AmigaLong}
    (h : m.words p (2 * xs.length) = mfmWords false (xs.flatMap fun x => longBytes x.bits)) :
    m.longs p xs.length = amigaCode 0 (xs.map AmigaLong.plain) := by
  refine blocks_injective length_halves halves_injective (by simp) ?_
  rw [Mem.longs_flatMap_halves, h, amigaCode_plain_words]
  rfl

/-- **Patched code words are emitted longs.** -/
theorem patchSyncs_longs {m : Mem} {p : Nat} {xs : List AmigaLong}
    (h : m.words p (2 * xs.length) = mfmWords false (xs.flatMap fun x => longBytes x.bits)) :
    (patchSyncs m p xs).longs p xs.length = amigaCode 0 xs := by
  refine List.ext_getElem? fun k => ?_
  rcases Nat.lt_or_ge k xs.length with hk | hk
  · have hplain := congrArg (·[k]?) (longs_plain h)
    simp only [getElem?_amigaCode_plain xs 0 0 k rfl] at hplain
    rw [List.getElem?_eq_getElem (by simpa using hk), Mem.getElem_longs] at hplain
    rw [List.getElem?_eq_getElem (by simpa using hk), Mem.getElem_longs, patchSyncs_long]
    by_cases hsync : xs[k]? = some .sync
    · rw [if_pos hsync, getElem?_amigaCode_sync xs 0 k hsync]
    · rw [if_neg hsync] at hplain ⊢
      exact hplain
  · rw [List.getElem?_eq_none (by simpa using hk), List.getElem?_eq_none (by simpa using hk)]

theorem Mem.word_eq_long (m : Mem) (a : Nat) : m.word a = (m.long a).extractLsb' 16 16 :=
  (List.cons.inj (m.longs_flatMap_halves a 1)).1.symm

/-- Each word of a run of code words is the code of its own data bits behind the word before. -/
theorem word_of_mfmWords {m : Mem} {p n : Nat} {y : Bool} {l : List Byte}
    (h : m.words p n = mfmWords y l) {i : Nat} (hpos : 1 ≤ i) (hi : i < n) :
    m.word (p + 2 * i) =
      mfmWord ((m.word (p + 2 * (i - 1))).getLsbD 0) (mfmtobin (m.word (p + 2 * i))) := by
  obtain ⟨a, ha⟩ : ∃ a : BitVec 16, a.getLsbD 0 = y := ⟨if y then 1 else 0, by cases y <;> rfl⟩
  rw [← ha] at h
  have hnot : i ∉ mfmCheckLoop m p n 0 a := by
    rw [mfmCheckLoop_eq_nil m p n 0 a l h]
    exact List.not_mem_nil
  rw [mem_mfmCheckLoop, if_neg (by omega)] at hnot
  by_contra hne
  exact hnot ⟨Nat.zero_le i, by omega, hne⟩

/-- Checked from a word whose first data bit is set, they pass. -/
theorem mfmCheck_of_mfmWords {m : Mem} {p n : Nat} {y : Bool} {l : List Byte}
    (h : m.words p n = mfmWords y l) {q k : Nat} (hq : 1 ≤ q) (hk : q + k ≤ n)
    (hset : (mfmtobin (m.word (p + 2 * q))).getMsbD 0 = true) :
    mfmCheck m (p + 2 * q) k = [] := by
  refine List.eq_nil_iff_forall_not_mem.mpr fun j hj => ?_
  rw [mfmCheck, mem_mfmCheckLoop] at hj
  obtain ⟨-, hlt, hne⟩ := hj
  have hword := word_of_mfmWords h (i := q + j) (by omega) (by omega)
  rw [Nat.mul_add, ← Nat.add_assoc] at hword
  refine hne (hword.trans ?_)
  by_cases hzero : j = 0
  · subst hzero
    exact mfmWord_of_msb hset _ _
  · rw [if_neg hzero, show p + 2 * (q + j - 1) = p + 2 * q + 2 * (j - 1) by omega]

section Track

variable {m m' buf : Mem} {p track nsec : Nat} {w : Mem × Write}

/-- A write that is not refused is of a track of either size. -/
theorem amigaTrackWrite_some (h : amigaTrackWrite m p buf track nsec = some w) :
    (nsec = 11 ∨ nsec = 22) ∧ w.2 = ⟨p, amigaTrackWords nsec, 1, 0, 0⟩ := by
  rw [amigaTrackWrite] at h
  split at h
  · cases h
  · exact ⟨by omega, by rw [← Option.some.inj h]⟩

/-- The longs that `amiga_track_write` hands to the write path. -/
theorem amigaTrackWrite_longs (h : amigaTrackWrite m p buf track nsec = some w) :
    ∃ n, w.2.nrWords = 2 * (trackLongs buf track nsec n).length ∧
      w.1.longs p (trackLongs buf track nsec n).length =
        amigaCode 0 (trackLongs buf track nsec n) := by
  obtain ⟨hnsec, hwr⟩ := amigaTrackWrite_some h
  obtain ⟨w', n, hw', -, hbits⟩ := amigaTrackWrite_spec m p buf track hnsec
  obtain rfl : w = w' := Option.some.inj (h.symm.trans hw')
  have hp : w.2.p = p := by rw [hwr]
  have hnr : w.2.nrWords = 2 * (trackLongs buf track nsec n).length := by
    have hlen := congrArg List.length hbits
    rw [Write.length_bits, length_blocks length_bitsOf, length_amigaCode] at hlen
    omega
  refine ⟨n, hnr, blocks_injective length_bitsOf (fun _ _ => bitsOf_injective) (by simp) ?_⟩
  rw [Mem.longs_flatMap_bitsOf, ← hbits, Write.bits, hp, hnr, ← Nat.mul_assoc]

/-- With its syncs replaced, the track is the code of its own data bits. -/
theorem amigaFixSync_words (h : amigaTrackWrite m p buf track nsec = some w) :
    ∃ l, (amigaFixSync w.1 (p + 4 * 33) nsec).1.words p w.2.nrWords = mfmWords false l := by
  obtain ⟨n, hnr, hlongs⟩ := amigaTrackWrite_longs h
  obtain ⟨xs, hxs⟩ : ∃ xs, xs = trackLongs buf track nsec n := ⟨_, rfl⟩
  have hsync : ∀ k, xs[k]? = some .sync ↔ ∃ s, s < nsec ∧ k = 33 + 272 * s := fun k => by
    rw [hxs]
    exact trackLongs_eq_sync_iff
  rw [← hxs] at hnr hlongs
  refine ⟨xs.flatMap fun x => longBytes x.bits, ?_⟩
  have hwords := amigaCode_plain_words 0 xs
  rw [show (0 : BitVec 32).getLsbD 0 = false from rfl] at hwords
  rw [hnr, ← Mem.longs_flatMap_halves, ← hwords]
  congr 1
  refine List.ext_getElem? fun k => ?_
  rw [getElem?_amigaCode_plain xs 0 0 k rfl, ← hlongs]
  rcases Nat.lt_or_ge k xs.length with hk | hk
  · rw [List.getElem?_eq_getElem (by simpa using hk),
      List.getElem?_eq_getElem (l := w.1.longs p xs.length) (by simpa using hk),
      Mem.getElem_longs, Mem.getElem_longs]
    by_cases hfront : k < 33
    · -- in front of the first sync nothing is replaced
      rw [if_neg fun hk => by obtain ⟨s, -, hs⟩ := (hsync k).mp hk; omega,
        Mem.long_congr fun a _ ha => amigaFixSync_frame w.1 _ nsec fun _ _ => .inl (by omega)]
    · obtain ⟨j, rfl⟩ : ∃ j, k = 33 + j := ⟨k - 33, by omega⟩
      have hiff : (∃ i, i < nsec ∧ j = i * 272) ↔ xs[33 + j]? = some .sync := by
        rw [hsync]
        exact exists_congr fun i => and_congr_right fun _ => by omega
      rw [Nat.mul_add, ← Nat.add_assoc, amigaFixSync_long]
      simp only [hiff]
      split <;> rfl
  · rw [List.getElem?_eq_none (by simpa using hk),
      List.getElem?_eq_none (l := w.1.longs p xs.length) (by simpa using hk),
      List.getElem?_eq_none (l := xs) hk, if_neg (by simp)]

end Track

/-- **The two MFM encoders agree.**  Whatever longs are emitted behind a carry of 0, and
wherever syncs are emitted between them, the bitcells are those that `bin_to_mfm` makes of
the data bits, behind a byte whose last bit is clear, with the syncs patched in afterwards.
So on the track that `amiga_track_write` hands on, with its syncs replaced, each word behind
the first is the code of its own data bits, and `mfm_check` reports nothing from a sync on. -/
theorem amiga_encoder_agrees :
    (∀ (m m' : Mem) (p p' : Nat) (xs : List AmigaLong),
      m'.bytes p' (2 * xs.length) = xs.flatMap (fun x => longBytes x.bits) →
      (m' (p' - 1)).getLsbD 0 = false →
      (xs.foldl Emit.put ⟨m, p, 0⟩).mem.bits p (4 * xs.length) =
        (patchSyncs (binToMfm m' p' (2 * xs.length)) p' xs).bits p' (4 * xs.length)) ∧
    ∀ (m : Mem) (p : Nat) (buf : Mem) (track nsec : Nat) (w : Mem × Write),
      amigaTrackWrite m p buf track nsec = some w →
      let fixed := (amigaFixSync w.1 (p + 4 * 33) nsec).1
      (∀ i, 1 ≤ i → i < w.2.nrWords → fixed.word (p + 2 * i) =
        mfmWord ((fixed.word (p + 2 * (i - 1))).getLsbD 0) (mfmtobin (fixed.word (p + 2 * i)))) ∧
      ∀ sec k, sec < nsec → 2 * (33 + 272 * sec) + k ≤ w.2.nrWords →
        mfmCheck fixed (p + 4 * (33 + 272 * sec)) k = [] := by
  refine ⟨fun m m' p p' xs hbytes hlast => ?_, fun m p buf track nsec w hw => ?_⟩
  · have hemit := (Emit.Holds.nil m p).puts xs
    rw [List.nil_append] at hemit
    have hwords := binToMfm_words m' p' (2 * xs.length)
    rw [hbytes, hlast] at hwords
    rw [← Mem.longs_flatMap_bitsOf, hemit.longs_eq, ← patchSyncs_longs hwords,
      Mem.longs_flatMap_bitsOf]
  · obtain ⟨l, hl⟩ := amigaFixSync_words hw
    refine ⟨fun i hpos hi => word_of_mfmWords hl hpos hi, fun sec k hsec hk => ?_⟩
    have hlong := amigaFixSync_long w.1 (p + 4 * 33) nsec (sec * 272)
    rw [if_pos ⟨sec, hsec, rfl⟩] at hlong
    have haddr : p + 4 * 33 + 4 * (sec * 272) = p + 2 * (2 * (33 + 272 * sec)) := by omega
    rw [haddr] at hlong
    rw [show p + 4 * (33 + 272 * sec) = p + 2 * (2 * (33 + 272 * sec)) by omega]
    refine mfmCheck_of_mfmWords hl (by omega) hk ?_
    rw [Mem.word_eq_long, hlong]
    decide

/-- A sync between two longs, of which the first has its other bits set as well; and a DD
track. -/
theorem amiga_encoder_agrees_dd :
    ([AmigaLong.data 0xffffffff, .sync, .data 0].foldl Emit.put ⟨fun _ => 0, 0, 0⟩).mem.bits 0 12 =
      (patchSyncs (binToMfm (Mem.stBytes (fun _ => 0) 1 [0xff, 0xff, 0xa1, 0xa1, 0, 0]) 1 6) 1
        [.data 0xffffffff, .sync, .data 0]).bits 1 12 ∧
    ∃ w, amigaTrackWrite (fun _ => 0) 0 (fun _ => 0) 0 11 = some w ∧
      mfmCheck (amigaFixSync w.1 (0 + 4 * 33) 11).1 (0 + 4 * (33 + 272 * 0)) 5982 = [] := by
  refine ⟨amiga_encoder_agrees.1 (fun _ => 0) _ 0 1 [.data 0xffffffff, .sync, .data 0] (by decide)
    (by decide), ?_⟩
  obtain ⟨w, n, hw, -⟩ := amigaTrackWrite_spec (fun _ => 0) 0 (fun _ => 0) 0 (.inl rfl)
  have hnr : w.2.nrWords = 6874 := by
    rw [(amigaTrackWrite_some hw).2]
    rfl
  exact ⟨w, hw, (amiga_encoder_agrees.2 _ _ _ _ _ w hw).2 0 5982 (by decide)
    (by rw [hnr]; decide)⟩

end FlashFloppyTestbed
