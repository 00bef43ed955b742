/-
  Fm.lean --- `src/fm.c`: the FM conversions.

  FM sets every clock bit, except in an address mark (`fm_sync`).  The data bits
  come from `mfmtab`, so `bin_to_fm` is in-place encoding with another word, and
  `fm_to_bin` is `mfm_to_bin`.
-/
import FlashFloppyTestbed.Mfm

set_option autoImplicit false

namespace FlashFloppyTestbed

open FlashFloppyTestbed.Foundation

/-! ## Code words -/

/-- `FM_SYNC_CLK`. -/
def fmSyncClk : Byte := 0xc7

/-- `fm_sync(dat, clk)`. -/
def fmSync (dat clk : Byte) : BitVec 16 :=
  (mfmtab clk &&& 0x5555) <<< 1 ||| (mfmtab dat &&& 0x5555)

/-- `mfmtab[x] | 0xaaaa`. -/
def fmCode (x : Byte) : BitVec 16 := mfmtab x ||| 0xaaaa

/-- The code: a data bit in each odd place, and before it a clock bit. -/
theorem fmCode_getMsbD : ∀ (x : Byte) (k : Fin 8),
    (fmCode x).getMsbD (2 * k + 1) = x.getMsbD k ∧ (fmCode x).getMsbD (2 * k) = true := by
  decide +kernel

theorem fmCode_data (x : Byte) {k : Nat} (hk : k < 8) :
    (fmCode x).getMsbD (2 * k + 1) = x.getMsbD k :=
  (fmCode_getMsbD x ⟨k, hk⟩).1

theorem fmCode_clock (x : Byte) {k : Nat} (hk : k < 8) : (fmCode x).getMsbD (2 * k) = true :=
  (fmCode_getMsbD x ⟨k, hk⟩).2

/-- Decoding undoes coding. -/
@[simp] theorem mfmtobin_fmCode (x : Byte) : mfmtobin (fmCode x) = x := by
  apply BitVec.eq_of_getMsbD_eq
  intro k hk
  rw [mfmtobin_getMsbD _ hk, fmCode_data x hk]

/-! ## `bin_to_fm`, `fm_to_bin` -/

/-- The loop of `bin_to_fm`, with the byte read last. -/
def binToFmLoop : Nat → Nat → Nat → Byte → Mem → Mem
  | 0, _, _, _, m => m
  | nr + 1, inp, out, x, m =>
      let y := m (inp - 1)
      binToFmLoop nr (inp - 1) (out - 2) y (m.st16 (out - 2) (htobe16 (fmCode x)))

/-- `bin_to_fm(p, nr)`; it reads the byte before `p`, and makes no use of it. -/
def binToFm (m : Mem) (p nr : Nat) : Mem :=
  binToFmLoop nr (p + nr - 1) (p + 2 * nr) (m (p + nr - 1)) m

/-- `fm_to_bin(p, nr)`. -/
def fmToBin (m : Mem) (p nr : Nat) : Mem := mfmToBin m p nr

/-- The loop is in-place encoding with the words of `fmCode`. -/
theorem binToFmLoop_eq : ∀ (k inp out : Nat) (x : Byte) (m : Mem),
    binToFmLoop k inp out x m = encodeLoop (fun _ x => fmCode x) k inp out x m
  | 0, _, _, _, _ => rfl
  | k + 1, inp, out, x, m => by
    rw [binToFmLoop, encodeLoop, binToFmLoop_eq k]

theorem codeWords_fmCode (y : Byte) (l : List Byte) :
    codeWords (fun _ x => fmCode x) y l = l.map fmCode := by
  induction l generalizing y with
  | nil => rfl
  | cons x l ih => rw [codeWords, ih, List.map_cons]

/-- **`bin_to_fm`** leaves the words for the bytes it was given. -/
theorem binToFm_words (m : Mem) (p nr : Nat) :
    (binToFm m p nr).words p nr = (m.bytes p nr).map fmCode := by
  rw [binToFm, binToFmLoop_eq, encodeLoop_words nr p _ m fun _ => rfl, codeWords_fmCode]

theorem binToFm_frame (m : Mem) (p nr : Nat) {i : Nat} (h : i < p ∨ p + 2 * nr ≤ i) :
    binToFm m p nr i = m i := by
  rw [binToFm, binToFmLoop_eq]
  exact encodeLoop_frame nr p _ m i h

/-! ## `fm_check` -/

/-- The loop of `fm_check`: the words it reports, by their number. -/
def fmCheckLoop (m : Mem) (p : Nat) : Nat → Nat → List Nat
  | 0, _ => []
  | nr + 1, i =>
      let b := m.word (p + 2 * i)
      let c := fmCode (mfmtobin b)
      (if b ≠ c then [i] else []) ++ fmCheckLoop m p nr (i + 1)

/-- `fm_check(p, nr)`. -/
def fmCheck (m : Mem) (p nr : Nat) : List Nat := fmCheckLoop m p nr 0

theorem fmCheckLoop_eq_nil_iff (m : Mem) (p : Nat) : ∀ nr i,
    fmCheckLoop m p nr i = [] ↔
      m.words (p + 2 * i) nr = ((m.words (p + 2 * i) nr).map mfmtobin).map fmCode := by
  intro nr
  induction nr with
  | zero => exact fun i => ⟨fun _ => rfl, fun _ => rfl⟩
  | succ nr ih =>
    intro i
    rw [fmCheckLoop, Mem.words_succ, List.map_cons, List.map_cons, List.cons_eq_cons,
      List.append_eq_nil_iff, ih, show p + 2 * (i + 1) = p + 2 * i + 2 by omega]
    refine and_congr_left fun _ => ⟨fun h => ?_, fun h => if_neg (not_not_intro h)⟩
    by_contra hne
    rw [if_pos hne] at h
    cases h

/-- **`fm_check` is exact**: it reports nothing if and only if every word is the code
word of its own data bits. -/
theorem fmCheck_eq_nil_iff (m : Mem) (p nr : Nat) :
    fmCheck m p nr = [] ↔ m.words p nr = ((m.words p nr).map mfmtobin).map fmCode :=
  fmCheckLoop_eq_nil_iff m p nr 0

end FlashFloppyTestbed
