/-
  Disk/AmigaCode.lean --- the longs that `amiga_track_write` emits, and the track
  they make.

  An `AmigaLong` is emitted as it is, if it is the sync long, and as code
  otherwise; `amigaCode` is what a sequence of them looks like in memory.  The
  two words of each are code words or sync words (`coded_amigaCode`).
  `trackLongs` is the sequence that the writer emits (`amigaTrackWrite_spec`).
-/
import FlashFloppyTestbed.Disk.Amiga

set_option autoImplicit false

namespace FlashFloppyTestbed

open FlashFloppyTestbed.Foundation FlashFloppyTestbed.Floppy

/-! ## Longs of a buffer -/

namespace Mem

/-- `be32toh(*(uint32_t *)a)`. -/
def long (m : Mem) (a : Nat) : BitVec 32 := be32toh (m.ld32 a)

/-- The `n` longs from address `a` on. -/
def longs (m : Mem) (a n : Nat) : List (BitVec 32) :=
  (List.range n).map fun i => m.long (a + 4 * i)

@[simp] theorem length_longs (m : Mem) (a n : Nat) : (m.longs a n).length = n := by
  simp [longs]

@[simp] theorem getElem_longs (m : Mem) (a n i : Nat) (h : i < (m.longs a n).length) :
    (m.longs a n)[i] = m.long (a + 4 * i) := by
  simp [longs]

theorem longs_succ_last (m : Mem) (a n : Nat) :
    m.longs a (n + 1) = m.longs a n ++ [m.long (a + 4 * n)] := by
  rw [longs, List.range_succ, List.map_append]
  rfl

theorem longs_add (m : Mem) (a n k : Nat) :
    m.longs a (n + k) = m.longs a n ++ m.longs (a + 4 * n) k := by
  rw [longs, List.range_add, List.map_append, List.map_map]
  refine congrArg (m.longs a n ++ ·) (List.map_congr_left fun i _ => ?_)
  rw [Function.comp_apply, Nat.mul_add, Nat.add_assoc]

theorem long_congr {m m' : Mem} {a : Nat} (h : ∀ i, a ≤ i → i < a + 4 → m i = m' i) :
    m.long a = m'.long a := by
  rw [long, long, ld32, ld32, h a (by omega) (by omega), h (a + 1) (by omega) (by omega),
    h (a + 2) (by omega) (by omega), h (a + 3) (by omega) (by omega)]

theorem longs_congr {m m' : Mem} {a n : Nat} (h : ∀ i, a ≤ i → i < a + 4 * n → m i = m' i) :
    m.longs a n = m'.longs a n := by
  refine List.map_congr_left fun i hi => long_congr fun j hlo hhi => ?_
  rw [List.mem_range] at hi
  exact h j (by omega) (by omega)

@[simp] theorem long_st32_htobe32 (m : Mem) (a : Nat) (v : BitVec 32) :
    (m.st32 a (htobe32 v)).long a = v := by
  rw [long, ld32_st32, be32toh, htobe32, rev32_rev32]

theorem long_st32_of_ne (m : Mem) {a b : Nat} (v : BitVec 32) (h : b + 4 ≤ a ∨ a + 4 ≤ b) :
    (m.st32 a v).long b = m.long b := by
  refine long_congr fun i hlo hhi => ?_
  rcases h with h | h
  · exact st32_of_lt m v (by omega)
  · exact st32_of_le m v (by omega)

/-- A long emitted just past a buffer extends it. -/
theorem longs_st32_append (m : Mem) (a n : Nat) (v : BitVec 32) :
    (m.st32 (a + 4 * n) (htobe32 v)).longs a (n + 1) = m.longs a n ++ [v] := by
  rw [longs_succ_last, long_st32_htobe32]
  congr 1
  exact longs_congr fun i _ hi => st32_of_lt m _ (by omega)

end Mem

/-- The two words of a long. -/
def halves (x : BitVec 32) : List (BitVec 16) := [x.extractLsb' 16 16, x.extractLsb' 0 16]

theorem length_halves (x : BitVec 32) : (halves x).length = 2 := rfl

theorem append_halves (x : BitVec 32) : x.extractLsb' 16 16 ++ x.extractLsb' 0 16 = x := by
  rw [BitVec.extractLsb'_append_extractLsb'_eq_extractLsb' (by rfl)]
  exact BitVec.extractLsb'_eq_self

theorem halves_injective : Function.Injective halves := by
  intro x x' h
  obtain ⟨hhi, hrest⟩ := List.cons.inj h
  rw [← append_halves x, ← append_halves x', hhi, (List.cons.inj hrest).1]

theorem flatMap_bitsOf_halves (x : BitVec 32) : (halves x).flatMap bitsOf = bitsOf x := by
  conv => rhs; rw [← append_halves x, bitsOf_append]
  simp [halves]

/-- The bitcells of a long, by its words. -/
theorem getMsbD_halves (x : BitVec 32) {i : Nat} (hi : i < 16) :
    (x.extractLsb' 16 16).getMsbD i = x.getMsbD i ∧
      (x.extractLsb' 0 16).getMsbD i = x.getMsbD (16 + i) := by
  constructor
  · conv => rhs; rw [← append_halves x, BitVec.getMsbD_append, if_neg (by omega)]
  · conv => rhs; rw [← append_halves x, BitVec.getMsbD_append, if_pos (by omega)]
    rw [Nat.add_sub_cancel_left]

theorem flatMap_halves_flatMap_bitsOf (ls : List (BitVec 32)) :
    (ls.flatMap halves).flatMap bitsOf = ls.flatMap bitsOf := by
  rw [List.flatMap_assoc]
  simp only [flatMap_bitsOf_halves]

/-- The longs of a buffer are its bitcells, 32 at a time. -/
theorem Mem.longs_flatMap_bitsOf (m : Mem) (a n : Nat) :
    (m.longs a n).flatMap bitsOf = m.bits a (4 * n) := by
  induction n with
  | zero => rfl
  | succ n ih =>
    rw [Mem.longs_succ_last, List.flatMap_append, ih, List.flatMap_singleton, Mem.long,
      Mem.bitsOf_be32toh_ld32, Nat.mul_succ, Mem.bits_add]

/-- The longs of a buffer, in words. -/
theorem Mem.longs_flatMap_halves (m : Mem) (a n : Nat) :
    (m.longs a n).flatMap halves = m.words a (2 * n) := by
  refine blocks_injective length_bitsOf (fun _ _ => bitsOf_injective) ?_ ?_
  · rw [length_blocks length_halves, Mem.length_longs, Mem.length_words]
  · rw [flatMap_halves_flatMap_bitsOf, Mem.longs_flatMap_bitsOf, Mem.words_flatMap_bitsOf,
      ← Nat.mul_assoc]

/-! ## Emitted longs -/

theorem getMsbD_dataBits_odd {k : Nat} (hk : k < 16) : dataBits.getMsbD (2 * k + 1) = true := by
  interval_cases k <;> rfl

theorem getMsbD_dataBits_even (k : Nat) : dataBits.getMsbD (2 * k) = false := by
  by_cases hk : k < 16
  · interval_cases k <;> rfl
  · exact BitVec.getMsbD_of_ge _ _ (by omega)

/-- The code of a long, without the carry from the long before it. -/
def codeLong (l : BitVec 32) : BitVec 32 :=
  l &&& dataBits ||| (~~~(l >>> 2 ||| l) &&& dataBits) <<< 1

/-- **The code**: the data bits stay, and a clock bit is set between two clear ones. -/
theorem codeLong_getMsbD (pr l : BitVec 32) {k : Nat} (hk : k < 16) :
    (codeLong l &&& ~~~(pr <<< 31)).getMsbD (2 * k + 1) = l.getMsbD (2 * k + 1) ∧
      (codeLong l &&& ~~~(pr <<< 31)).getMsbD (2 * k) =
        (!(if k = 0 then pr.getLsbD 0 else l.getMsbD (2 * k - 1)) && !l.getMsbD (2 * k + 1)) := by
  have hcarry : ∀ i, i < 32 →
      (~~~(pr <<< 31)).getMsbD i = !(if i = 0 then pr.getLsbD 0 else false) := by
    intro i hi
    rw [BitVec.getMsbD_not, BitVec.getMsbD_shiftLeft, decide_eq_true hi, Bool.true_and]
    by_cases hzero : i = 0
    · subst hzero
      rw [if_pos rfl, BitVec.getMsbD_eq_getLsbD]
      rfl
    · rw [if_neg hzero, BitVec.getMsbD_of_ge _ _ (by omega)]
  rw [codeLong, BitVec.getMsbD_and, BitVec.getMsbD_and, hcarry _ (by omega), hcarry _ (by omega)]
  simp only [BitVec.getMsbD_and, BitVec.getMsbD_or, BitVec.getMsbD_not, BitVec.getMsbD_shiftLeft,
    BitVec.getMsbD_ushiftRight, getMsbD_dataBits_odd hk, getMsbD_dataBits_even,
    show 2 * k + 1 + 1 = 2 * (k + 1) by omega]
  refine ⟨by simp, ?_⟩
  by_cases hk0 : k = 0
  · subst hk0
    simp [Bool.and_comm]
  · have hlt : 2 * k + 1 < 32 := by omega
    have hge : ¬ 2 * k + 1 < 2 := by omega
    simp [hk0, hlt, hge]

/-- The bytes of a long's data bits. -/
def longBytes (l : BitVec 32) : List Byte := (halves l).map mfmtobin

theorem longBytes_getMsbD (l : BitVec 32) {k : Nat} (hk : k < 8) :
    (mfmtobin (l.extractLsb' 16 16)).getMsbD k = l.getMsbD (2 * k + 1) ∧
      (mfmtobin (l.extractLsb' 0 16)).getMsbD k = l.getMsbD (2 * (8 + k) + 1) := by
  rw [mfmtobin_getMsbD _ hk, mfmtobin_getMsbD _ hk, (getMsbD_halves l (by omega)).1,
    (getMsbD_halves l (by omega)).2]
  exact ⟨rfl, by congr 1; omega⟩

/-- The words of an emitted long are the code words of its data bits. -/
theorem halves_codeLong (pr l : BitVec 32) :
    halves (codeLong l &&& ~~~(pr <<< 31)) = mfmWords (pr.getLsbD 0) (longBytes l) := by
  have hcode := fun k hk => codeLong_getMsbD pr l (k := k) hk
  obtain ⟨w, hw⟩ : ∃ w, w = codeLong l &&& ~~~(pr <<< 31) := ⟨_, rfl⟩
  rw [← hw] at hcode ⊢
  have hhi : w.extractLsb' 16 16 = mfmWord (pr.getLsbD 0) (mfmtobin (l.extractLsb' 16 16)) := by
    refine eq_mfmWord (fun k hk => ?_) fun k hk => ?_
    · rw [(getMsbD_halves w (by omega)).1, (hcode k (by omega)).1, (longBytes_getMsbD l hk).1]
    · rw [(getMsbD_halves w (by omega)).1, (hcode k (by omega)).2, (longBytes_getMsbD l hk).1,
        bitBefore]
      by_cases hk0 : k = 0
      · rw [if_pos hk0, if_pos hk0]
      · rw [if_neg hk0, if_neg hk0, (longBytes_getMsbD l (by omega)).1]
        congr 3
        omega
  have hlo : w.extractLsb' 0 16 =
      mfmWord ((mfmtobin (l.extractLsb' 16 16)).getLsbD 0) (mfmtobin (l.extractLsb' 0 16)) := by
    refine eq_mfmWord (fun k hk => ?_) fun k hk => ?_
    · rw [(getMsbD_halves w (by omega)).2, show 16 + (2 * k + 1) = 2 * (8 + k) + 1 by omega,
        (hcode _ (by omega)).1, (longBytes_getMsbD l hk).2]
    · rw [(getMsbD_halves w (by omega)).2, show 16 + 2 * k = 2 * (8 + k) by omega,
        (hcode _ (by omega)).2, (longBytes_getMsbD l hk).2, if_neg (by omega), bitBefore]
      by_cases hk0 : k = 0
      · -- the clock bit behind the first byte
        subst hk0
        have hlast := (longBytes_getMsbD l (k := 7) (by decide)).1
        rw [BitVec.getMsbD_eq_getLsbD, decide_eq_true (by decide), Bool.true_and] at hlast
        rw [if_pos rfl, hlast]
      · rw [if_neg hk0, (longBytes_getMsbD l (by omega)).2]
        congr 3
        omega
  rw [halves, hhi, hlo]
  rfl

/-! ## Sequences of longs -/

/-- The sync long. -/
def syncLong : BitVec 32 := 0x44894489

/-- A long of the track: the sync long, emitted as it is, or a long emitted as code. -/
inductive AmigaLong where
  | sync
  | data (l : BitVec 32)
  deriving DecidableEq

namespace AmigaLong

/-- What the next long is emitted behind. -/
def value : AmigaLong → BitVec 32
  | sync => syncLong
  | data l => codeLong l

/-- The long with its data bits. -/
def bits : AmigaLong → BitVec 32
  | sync => syncLong
  | data l => l

/-- The two items of a long. -/
def items : AmigaLong → List Item
  | sync => [⟨.sync, 0xa1⟩, ⟨.sync, 0xa1⟩]
  | data l => codedItems (longBytes l)

theorem length_items (x : AmigaLong) : x.items.length = 2 := by
  cases x <;> rfl

end AmigaLong

/-- The longs in memory, behind the long `pr`. -/
def amigaCode : BitVec 32 → List AmigaLong → List (BitVec 32)
  | _, [] => []
  | pr, x :: xs => (x.value &&& ~~~(pr <<< 31)) :: amigaCode x.value xs

/-- The long emitted last. -/
def lastLong (pr : BitVec 32) (xs : List AmigaLong) : BitVec 32 :=
  xs.foldl (fun _ x => x.value) pr

@[simp] theorem length_amigaCode (pr : BitVec 32) (xs : List AmigaLong) :
    (amigaCode pr xs).length = xs.length := by
  induction xs generalizing pr with
  | nil => rfl
  | cons x xs ih => rw [amigaCode, List.length_cons, ih, List.length_cons]

theorem amigaCode_append (pr : BitVec 32) (xs ys : List AmigaLong) :
    amigaCode pr (xs ++ ys) = amigaCode pr xs ++ amigaCode (lastLong pr xs) ys := by
  induction xs generalizing pr with
  | nil => rfl
  | cons x xs ih =>
    rw [List.cons_append, amigaCode, ih, amigaCode, List.cons_append]
    rfl

/-- In front of a clear bit there is nothing to be carried. -/
theorem carry_of_msb {x : BitVec 32} (hx : x.getMsbD 0 = false) (pr : BitVec 32) :
    x &&& ~~~(pr <<< 31) = x := by
  apply BitVec.eq_of_getMsbD_eq
  intro i hi
  rw [BitVec.getMsbD_and, BitVec.getMsbD_not, BitVec.getMsbD_shiftLeft]
  by_cases hzero : i = 0
  · rw [hzero, hx, Bool.false_and]
  · rw [BitVec.getMsbD_of_ge pr _ (by omega)]
    simp [hi]

/-- **Emitted longs are code words and sync words.** -/
theorem coded_amigaCode (pr : BitVec 32) (xs : List AmigaLong) :
    Coded (pr.getLsbD 0) (xs.flatMap AmigaLong.items) ((amigaCode pr xs).flatMap halves) := by
  induction xs generalizing pr with
  | nil => exact .nil _
  | cons x xs ih =>
    have hblock : Coded (pr.getLsbD 0) x.items (halves (x.value &&& ~~~(pr <<< 31))) := by
      cases x with
      | sync =>
        rw [AmigaLong.value, carry_of_msb (by decide)]
        exact .cons ⟨rfl, rfl⟩ (.cons ⟨rfl, rfl⟩ (.nil _))
      | data l => exact coded_codedItems_iff.mpr (halves_codeLong pr l)
    have hlast : lastBit (pr.getLsbD 0) (itemBytes x.items) = x.value.getLsbD 0 := by
      cases x with
      | sync => rfl
      | data l =>
        have hbit := (longBytes_getMsbD l (k := 7) (by decide)).2
        have hvalue := (codeLong_getMsbD 0#32 l (k := 15) (by decide)).1
        rw [BitVec.zero_shiftLeft, BitVec.not_zero, BitVec.and_allOnes] at hvalue
        rw [BitVec.getMsbD_eq_getLsbD, decide_eq_true (by decide), Bool.true_and] at hbit
        rw [AmigaLong.items, itemBytes_codedItems, longBytes, halves]
        show (mfmtobin (l.extractLsb' 0 16)).getLsbD 0 = (codeLong l).getLsbD 0
        rw [hbit, ← hvalue, BitVec.getMsbD_eq_getLsbD]
        rfl
    refine hblock.append ?_
    rw [hlast]
    exact ih x.value

/-- Masks agree if the data bits do. -/
theorem and_dataBits_congr {x y : BitVec 32}
    (h : ∀ k, k < 16 → x.getMsbD (2 * k + 1) = y.getMsbD (2 * k + 1)) :
    x &&& dataBits = y &&& dataBits := by
  apply BitVec.eq_of_getMsbD_eq
  intro i hi
  rw [BitVec.getMsbD_and, BitVec.getMsbD_and]
  rcases Nat.mod_two_eq_zero_or_one i with heven | hodd
  · obtain ⟨k, rfl⟩ : ∃ k, i = 2 * k := ⟨i / 2, by omega⟩
    rw [getMsbD_dataBits_even, Bool.and_false, Bool.and_false]
  · obtain ⟨k, rfl⟩ : ∃ k, i = 2 * k + 1 := ⟨i / 2, by omega⟩
    rw [h k (by omega)]

/-- Emitted longs have the data bits of the longs. -/
theorem map_amigaCode_dataBits (pr : BitVec 32) (xs : List AmigaLong) :
    (amigaCode pr xs).map (· &&& dataBits) = xs.map fun x => x.bits &&& dataBits := by
  induction xs generalizing pr with
  | nil => rfl
  | cons x xs ih =>
    rw [amigaCode, List.map_cons, List.map_cons, ih]
    congr 1
    cases x with
    | sync => rw [AmigaLong.value, carry_of_msb (by decide)]; rfl
    | data l => exact and_dataBits_congr fun k hk => (codeLong_getMsbD pr l hk).1

/-! ## What the writer emits -/

namespace Emit

/-- The longs emitted so far. -/
structure Holds (p : Nat) (xs : List AmigaLong) (e : Emit) : Prop where
  q_eq : e.q = p + 4 * xs.length
  longs_eq : e.mem.longs p xs.length = amigaCode 0 xs
  pr_eq : e.pr = lastLong 0 xs

namespace Holds

variable {p : Nat} {xs : List AmigaLong} {e : Emit}

theorem nil (m : Mem) (p : Nat) : Holds p [] ⟨m, p, 0⟩ := ⟨rfl, rfl, rfl⟩

theorem emit (h : Holds p xs e) (x : AmigaLong) : Holds p (xs ++ [x]) (e.raw x.value) where
  q_eq := by
    show e.q + 4 = p + 4 * (xs ++ [x]).length
    rw [h.q_eq, List.length_append, List.length_singleton]
    omega
  longs_eq := by
    rw [Emit.raw, h.q_eq, h.pr_eq, List.length_append, List.length_singleton,
      Mem.longs_st32_append, h.longs_eq, amigaCode_append]
    rfl
  pr_eq := by
    rw [lastLong, List.foldl_append]
    rfl

theorem long (h : Holds p xs e) (l : BitVec 32) : Holds p (xs ++ [.data l]) (e.long l) :=
  h.emit (.data l)

theorem longs (h : Holds p xs e) (ls : List (BitVec 32)) {n : Nat} {f : Nat → BitVec 32}
    (hls : (List.range n).map f = ls) : Holds p (xs ++ ls.map .data) (e.longs n f) := by
  subst hls
  induction n with
  | zero =>
    rw [List.range_zero, List.map_nil, List.map_nil, List.append_nil]
    exact h
  | succ n ih =>
    rw [Emit.longs, List.range_succ, List.foldl_append, List.map_append, List.map_append,
      ← List.append_assoc]
    exact ih.long (f n)

theorem gap (n : Nat) : ∀ {xs : List AmigaLong} {e : Emit}, Holds p xs e →
    Holds p (xs ++ List.replicate n (.data 0#32)) (e.gap (e.q + 4 * n)) := by
  induction n with
  | zero =>
    intro xs e h
    rw [List.replicate_zero, List.append_nil, Emit.gap, if_neg (by omega)]
    exact h
  | succ n ih =>
    intro xs e h
    have hrest := ih (h.long 0)
    rw [List.append_assoc, show (e.long 0).q + 4 * n = e.q + 4 * (n + 1) by
      show e.q + 4 + 4 * n = e.q + 4 * (n + 1)
      omega] at hrest
    rw [List.replicate_succ, Emit.gap, if_pos (by omega)]
    exact hrest

end Holds

end Emit

/-- The longs of a sector behind its sync long. -/
def sectorData (buf : Mem) (track nsec sec : Nat) : List (BitVec 32) :=
  let info := amigaInfo track nsec sec
  let b := 512 * sec
  [even info, odd info] ++ List.replicate 8 0#32 ++
    [0, odd (info ^^^ (info >>> 1)), 0, odd (amigadosDatChecksum buf b 512)] ++
    (buf.longs b 128).map even ++ (buf.longs b 128).map odd

/-- The longs of a sector. -/
def sectorLongs (buf : Mem) (track nsec sec : Nat) : List AmigaLong :=
  .data 0#32 :: .sync :: (sectorData buf track nsec sec).map .data

/-- The longs of a track, with a pre-index gap of `n` longs. -/
def trackLongs (buf : Mem) (track nsec n : Nat) : List AmigaLong :=
  List.replicate 32 (.data 0#32) ++ (List.range nsec).flatMap (sectorLongs buf track nsec) ++
    List.replicate n (.data 0#32)

@[simp] theorem length_sectorData (buf : Mem) (track nsec sec : Nat) :
    (sectorData buf track nsec sec).length = 270 := by
  simp [sectorData]

theorem length_sectorLongs (buf : Mem) (track nsec sec : Nat) :
    (sectorLongs buf track nsec sec).length = 272 := by
  simp [sectorLongs]

theorem length_trackLongs (buf : Mem) (track nsec n : Nat) :
    (trackLongs buf track nsec n).length = 32 + 272 * nsec + n := by
  rw [trackLongs, List.length_append, List.length_append, List.length_replicate,
    List.length_replicate, length_blocks (length_sectorLongs buf track nsec), List.length_range]

/-- One iteration emits the longs of a sector. -/
theorem Emit.Holds.sector {p : Nat} {xs : List AmigaLong} {e : Emit} (h : e.Holds p xs)
    (buf : Mem) (track nsec sec : Nat) :
    (e.sector buf track nsec sec).Holds p (xs ++ sectorLongs buf track nsec sec) := by
  have hmark := (h.long 0).emit .sync
  have hinfo := ((hmark.long (even (amigaInfo track nsec sec))).long
    (odd (amigaInfo track nsec sec))).longs (List.replicate 8 0#32)
      (show (List.range 8).map (fun _ => 0) = _ from rfl)
  have hcsum := (((hinfo.long 0).long (odd (amigaInfo track nsec sec ^^^
    (amigaInfo track nsec sec >>> 1)))).long 0).long
      (odd (amigadosDatChecksum buf (512 * sec) 512))
  have heven : (List.range 128).map (fun i => even (buf.long (512 * sec + 4 * i))) =
      (buf.longs (512 * sec) 128).map even := by
    rw [Mem.longs, List.map_map]
    rfl
  have hodd : (List.range 128).map (fun i => odd (buf.long (512 * sec + 4 * i))) =
      (buf.longs (512 * sec) 128).map odd := by
    rw [Mem.longs, List.map_map]
    rfl
  have hall := (hcsum.longs _ heven).longs _ hodd
  rw [sectorLongs, sectorData]
  simp only [List.map_append, List.map_cons, List.append_assoc, List.cons_append,
    List.nil_append] at hall ⊢
  exact hall

/-- **`amiga_track_write`** hands the longs of a track to the write path. -/
theorem amigaTrackWrite_spec (m : Mem) (p : Nat) (buf : Mem) (track : Nat) {nsec : Nat}
    (hnsec : nsec = 11 ∨ nsec = 22) :
    ∃ w n, amigaTrackWrite m p buf track nsec = some w ∧ 0 < n ∧
      w.2.bits w.1 = (amigaCode 0 (trackLongs buf track nsec n)).flatMap bitsOf := by
  obtain ⟨n, hpos, hn⟩ : ∃ n, 0 < n ∧ amigaTrackWords nsec = 2 * (32 + 272 * nsec + n) := by
    rcases hnsec with rfl | rfl
    · exact ⟨413, by decide, rfl⟩
    · exact ⟨858, by decide, rfl⟩
  obtain ⟨e₀, he₀⟩ : ∃ e₀, e₀ = (Emit.mk m p 0).longs 32 fun _ => 0 := ⟨_, rfl⟩
  have hgap : e₀.Holds p (List.replicate 32 (.data 0#32)) := by
    have hlongs := (Emit.Holds.nil m p).longs (List.replicate 32 0#32)
      (show (List.range 32).map (fun _ => 0) = _ from rfl)
    rw [List.nil_append, List.map_replicate, ← he₀] at hlongs
    exact hlongs
  have hsectors : ∀ k, ((List.range k).foldl (fun e sec => e.sector buf track nsec sec) e₀).Holds p
      (List.replicate 32 (.data 0#32) ++ (List.range k).flatMap (sectorLongs buf track nsec)) := by
    intro k
    induction k with
    | zero =>
      rw [List.range_zero, List.flatMap_nil, List.append_nil, List.foldl_nil]
      exact hgap
    | succ k ih =>
      rw [List.range_succ, List.foldl_append, List.flatMap_append, ← List.append_assoc,
        List.flatMap_singleton, List.foldl_cons, List.foldl_nil]
      exact ih.sector buf track nsec k
  have hlen : (List.replicate 32 (AmigaLong.data 0#32) ++
      (List.range nsec).flatMap (sectorLongs buf track nsec)).length = 32 + 272 * nsec := by
    rw [List.length_append, List.length_replicate,
      length_blocks (length_sectorLongs buf track nsec), List.length_range]
  have hall := Emit.Holds.gap n (hsectors nsec)
  have hend : ((List.range nsec).foldl (fun e sec => e.sector buf track nsec sec) e₀).q + 4 * n =
      p + 4 * (amigaTrackWords nsec / 2) := by
    rw [(hsectors nsec).q_eq, hlen, hn]
    omega
  rw [hend, ← trackLongs] at hall
  have hlongs := hall.longs_eq
  rw [length_trackLongs] at hlongs
  obtain ⟨e, he⟩ : ∃ e, e = Emit.gap (p + 4 * (amigaTrackWords nsec / 2))
    ((List.range nsec).foldl (fun e sec => e.sector buf track nsec sec) e₀) := ⟨_, rfl⟩
  rw [← he] at hlongs
  have hwrite : amigaTrackWrite m p buf track nsec =
      some (e.mem, ⟨p, amigaTrackWords nsec, 1, 0, 0⟩) := by
    rw [amigaTrackWrite, if_neg (by omega), he, he₀]
  refine ⟨_, n, hwrite, hpos, ?_⟩
  rw [← hlongs, Mem.longs_flatMap_bitsOf]
  show e.mem.bits p (2 * amigaTrackWords nsec) = _
  rw [hn, ← Nat.mul_assoc]

end FlashFloppyTestbed
