/-
  Mfm.lean --- `src/mfm.c`: the MFM table and the conversions that use it.

  A byte becomes a 16-bit word in which each data bit follows a clock bit; the
  clock bit is set between two clear data bits.  `mfmtab` holds the words for a
  clear bit before the byte, and `mfmWord y x` is the word for `x` behind a byte
  whose last bit is `y`.

  Bitcell buffers hold such words big-endian: `Mem.words` reads them back.
-/
import FlashFloppyTestbed.Memory
import Mathlib.Tactic.IntervalCases

set_option autoImplicit false

namespace FlashFloppyTestbed

open FlashFloppyTestbed.Foundation

/-! ## Code words -/

/-- The contents of `mfmtab`. -/
def mfmTable : List (BitVec 16) :=
  [ 0xaaaa, 0xaaa9, 0xaaa4, 0xaaa5, 0xaa92, 0xaa91, 0xaa94, 0xaa95,
    0xaa4a, 0xaa49, 0xaa44, 0xaa45, 0xaa52, 0xaa51, 0xaa54, 0xaa55,
    0xa92a, 0xa929, 0xa924, 0xa925, 0xa912, 0xa911, 0xa914, 0xa915,
    0xa94a, 0xa949, 0xa944, 0xa945, 0xa952, 0xa951, 0xa954, 0xa955,
    0xa4aa, 0xa4a9, 0xa4a4, 0xa4a5, 0xa492, 0xa491, 0xa494, 0xa495,
    0xa44a, 0xa449, 0xa444, 0xa445, 0xa452, 0xa451, 0xa454, 0xa455,
    0xa52a, 0xa529, 0xa524, 0xa525, 0xa512, 0xa511, 0xa514, 0xa515,
    0xa54a, 0xa549, 0xa544, 0xa545, 0xa552, 0xa551, 0xa554, 0xa555,
    0x92aa, 0x92a9, 0x92a4, 0x92a5, 0x9292, 0x9291, 0x9294, 0x9295,
    0x924a, 0x9249, 0x9244, 0x9245, 0x9252, 0x9251, 0x9254, 0x9255,
    0x912a, 0x9129, 0x9124, 0x9125, 0x9112, 0x9111, 0x9114, 0x9115,
    0x914a, 0x9149, 0x9144, 0x9145, 0x9152, 0x9151, 0x9154, 0x9155,
    0x94aa, 0x94a9, 0x94a4, 0x94a5, 0x9492, 0x9491, 0x9494, 0x9495,
    0x944a, 0x9449, 0x9444, 0x9445, 0x9452, 0x9451, 0x9454, 0x9455,
    0x952a, 0x9529, 0x9524, 0x9525, 0x9512, 0x9511, 0x9514, 0x9515,
    0x954a, 0x9549, 0x9544, 0x9545, 0x9552, 0x9551, 0x9554, 0x9555,
    0x4aaa, 0x4aa9, 0x4aa4, 0x4aa5, 0x4a92, 0x4a91, 0x4a94, 0x4a95,
    0x4a4a, 0x4a49, 0x4a44, 0x4a45, 0x4a52, 0x4a51, 0x4a54, 0x4a55,
    0x492a, 0x4929, 0x4924, 0x4925, 0x4912, 0x4911, 0x4914, 0x4915,
    0x494a, 0x4949, 0x4944, 0x4945, 0x4952, 0x4951, 0x4954, 0x4955,
    0x44aa, 0x44a9, 0x44a4, 0x44a5, 0x4492, 0x4491, 0x4494, 0x4495,
    0x444a, 0x4449, 0x4444, 0x4445, 0x4452, 0x4451, 0x4454, 0x4455,
    0x452a, 0x4529, 0x4524, 0x4525, 0x4512, 0x4511, 0x4514, 0x4515,
    0x454a, 0x4549, 0x4544, 0x4545, 0x4552, 0x4551, 0x4554, 0x4555,
    0x52aa, 0x52a9, 0x52a4, 0x52a5, 0x5292, 0x5291, 0x5294, 0x5295,
    0x524a, 0x5249, 0x5244, 0x5245, 0x5252, 0x5251, 0x5254, 0x5255,
    0x512a, 0x5129, 0x5124, 0x5125, 0x5112, 0x5111, 0x5114, 0x5115,
    0x514a, 0x5149, 0x5144, 0x5145, 0x5152, 0x5151, 0x5154, 0x5155,
    0x54aa, 0x54a9, 0x54a4, 0x54a5, 0x5492, 0x5491, 0x5494, 0x5495,
    0x544a, 0x5449, 0x5444, 0x5445, 0x5452, 0x5451, 0x5454, 0x5455,
    0x552a, 0x5529, 0x5524, 0x5525, 0x5512, 0x5511, 0x5514, 0x5515,
    0x554a, 0x5549, 0x5544, 0x5545, 0x5552, 0x5551, 0x5554, 0x5555 ]

/-- `mfmtab[x]`. -/
def mfmtab (x : Byte) : BitVec 16 := mfmTable.getD x.toNat 0

/-- `mfmtab[x] & ~(y << 15)`. -/
def mfmCode (y : BitVec 16) (x : Byte) : BitVec 16 := mfmtab x &&& ~~~(y <<< 15)

/-- The word for `x` behind a data bit `y`. -/
def mfmWord (y : Bool) (x : Byte) : BitVec 16 := mfmCode (if y then 1 else 0) x

/-- The bit before position `k` of a byte that follows a data bit `y`. -/
def bitBefore (y : Bool) (x : Byte) (k : Nat) : Bool := if k = 0 then y else x.getMsbD (k - 1)

/-- **The code**: a data bit in each odd place, and before it a clock bit that is
set between two clear data bits. -/
theorem mfmWord_getMsbD : ∀ (x : Byte) (y : Bool) (k : Fin 8),
    (mfmWord y x).getMsbD (2 * k + 1) = x.getMsbD k ∧
      (mfmWord y x).getMsbD (2 * k) = (!bitBefore y x k && !x.getMsbD k) := by
  decide +kernel

theorem mfmWord_data (y : Bool) (x : Byte) {k : Nat} (hk : k < 8) :
    (mfmWord y x).getMsbD (2 * k + 1) = x.getMsbD k :=
  (mfmWord_getMsbD x y ⟨k, hk⟩).1

theorem mfmWord_clock (y : Bool) (x : Byte) {k : Nat} (hk : k < 8) :
    (mfmWord y x).getMsbD (2 * k) = (!bitBefore y x k && !x.getMsbD k) :=
  (mfmWord_getMsbD x y ⟨k, hk⟩).2

/-- A word with these bits is the code word. -/
theorem eq_mfmWord {y : Bool} {x : Byte} {w : BitVec 16}
    (hdata : ∀ k, k < 8 → w.getMsbD (2 * k + 1) = x.getMsbD k)
    (hclock : ∀ k, k < 8 → w.getMsbD (2 * k) = (!bitBefore y x k && !x.getMsbD k)) :
    w = mfmWord y x := by
  apply BitVec.eq_of_getMsbD_eq
  intro i hi
  rcases Nat.mod_two_eq_zero_or_one i with heven | hodd
  · obtain ⟨k, rfl⟩ : ∃ k, i = 2 * k := ⟨i / 2, by omega⟩
    rw [hclock k (by omega), mfmWord_clock y x (by omega)]
  · obtain ⟨k, rfl⟩ : ∃ k, i = 2 * k + 1 := ⟨i / 2, by omega⟩
    rw [hdata k (by omega), mfmWord_data y x (by omega)]

/-- The last bit of a word is the last bit of its byte. -/
theorem mfmWord_lsb (y : Bool) (x : Byte) : (mfmWord y x).getLsbD 0 = x.getLsbD 0 := by
  have hlast := mfmWord_data y x (k := 7) (by decide)
  rw [BitVec.getMsbD_eq_getLsbD, BitVec.getMsbD_eq_getLsbD] at hlast
  simpa using hlast

/-- In front of a set bit there is no clock bit anyway. -/
theorem mfmWord_of_msb {x : Byte} (hx : x.getMsbD 0 = true) (y y' : Bool) :
    mfmWord y x = mfmWord y' x := by
  have hboth : ∀ x : Byte, x.getMsbD 0 = true → mfmWord true x = mfmWord false x := by
    decide +kernel
  cases y <;> cases y' <;> simp [hboth x hx]

/-- Only the last bit of the word before counts. -/
theorem mfmCode_eq (y : BitVec 16) (x : Byte) : mfmCode y x = mfmWord (y.getLsbD 0) x := by
  have hshift : y <<< 15 = (if y.getLsbD 0 then 1 else 0 : BitVec 16) <<< 15 :=
    shiftLeft_last_congr (by cases y.getLsbD 0 <;> rfl)
  rw [mfmWord, mfmCode, mfmCode, hshift]

/-! ## Decoding a word -/

/-- `lsrs x,x,#2 ; rrx y,y`: the bit shifted out of `x` last goes into the top of `y`. -/
def lsrsRrx (r : BitVec 32 × BitVec 32) : BitVec 32 × BitVec 32 :=
  (r.1 >>> 2, BitVec.cons (r.1.getLsbD 1) (r.2.extractLsb' 1 31))

/-- `mfmtobin(x)`, with whatever the register of `y` holds at first. -/
def mfmtobinFrom (y : BitVec 32) (x : BitVec 16) : Byte :=
  (rev32 (lsrsRrx^[8] ((x <<< 1).setWidth 32, y)).2).setWidth 8

/-- `mfmtobin(x)`. -/
def mfmtobin (x : BitVec 16) : Byte := mfmtobinFrom 0 x

/-- The registers after some steps: each moves the bits of `y` down by one. -/
theorem lsrsRrx_iterate (r : BitVec 32 × BitVec 32) : ∀ n, n ≤ 32 →
    (lsrsRrx^[n] r).1 = r.1 >>> (2 * n) ∧
      ∀ i, i < 32 → (lsrsRrx^[n] r).2.getLsbD i =
        if i + n < 32 then r.2.getLsbD (i + n) else r.1.getLsbD (2 * (i + n - 32) + 1) := by
  intro n
  induction n with
  | zero =>
    intro _
    exact ⟨by simp, fun i hi => by simp [hi]⟩
  | succ n ih =>
    intro hn
    obtain ⟨hx, hy⟩ := ih (by omega)
    rw [Function.iterate_succ_apply']
    refine ⟨?_, fun i hi => ?_⟩
    · rw [lsrsRrx, hx, ← BitVec.shiftRight_add]
      rfl
    · rw [lsrsRrx]
      simp only [BitVec.getLsbD_cons, BitVec.getLsbD_extractLsb', hx, BitVec.getLsbD_ushiftRight]
      by_cases htop : i = 31
      · subst htop
        rw [if_pos rfl, if_neg (by omega)]
        congr 1
        omega
      · rw [if_neg htop, decide_eq_true (by omega : i < 31), Bool.true_and, hy _ (by omega)]
        by_cases hlow : 1 + i + n < 32
        · rw [if_pos hlow, if_pos (by omega)]
          congr 1
          omega
        · rw [if_neg hlow, if_neg (by omega)]
          congr 1
          omega

/-- `mfmtobin` collects the data bits. -/
theorem mfmtobinFrom_getLsbD (y : BitVec 32) (x : BitVec 16) {i : Nat} (hi : i < 8) :
    (mfmtobinFrom y x).getLsbD i = x.getLsbD (2 * i) := by
  have hrev : ∀ v : BitVec 32, (rev32 v).setWidth 8 = v.extractLsb' 24 8 := by
    intro v
    apply BitVec.eq_of_getLsbD_eq
    intro j hj
    rw [BitVec.getLsbD_setWidth, rev32, BitVec.getLsbD_append, if_pos hj, decide_eq_true hj,
      Bool.true_and]
  have hregs := (lsrsRrx_iterate ((x <<< 1).setWidth 32, y) 8 (by decide)).2 (24 + i) (by omega)
  rw [mfmtobinFrom, hrev, BitVec.getLsbD_extractLsb', decide_eq_true hi, Bool.true_and, hregs,
    if_neg (by omega), BitVec.getLsbD_setWidth, BitVec.getLsbD_shiftLeft]
  have hin : 2 * (24 + i + 8 - 32) + 1 < 16 := by omega
  rw [decide_eq_true (by omega), decide_eq_true hin, Bool.true_and, Bool.true_and,
    decide_eq_false (by omega), Bool.not_false, Bool.true_and]
  congr 1
  omega

theorem mfmtobinFrom_eq (y : BitVec 32) (x : BitVec 16) : mfmtobinFrom y x = mfmtobin x := by
  apply BitVec.eq_of_getLsbD_eq
  intro i hi
  rw [mfmtobin, mfmtobinFrom_getLsbD y x hi, mfmtobinFrom_getLsbD 0 x hi]

theorem mfmtobin_getMsbD (x : BitVec 16) {k : Nat} (hk : k < 8) :
    (mfmtobin x).getMsbD k = x.getMsbD (2 * k + 1) := by
  rw [BitVec.getMsbD_eq_getLsbD, BitVec.getMsbD_eq_getLsbD, mfmtobin,
    mfmtobinFrom_getLsbD 0 x (by omega), decide_eq_true hk,
    decide_eq_true (by omega : 2 * k + 1 < 16), Bool.true_and, Bool.true_and]
  congr 1
  omega

/-- Decoding undoes coding. -/
@[simp] theorem mfmtobin_mfmWord (y : Bool) (x : Byte) : mfmtobin (mfmWord y x) = x := by
  apply BitVec.eq_of_getMsbD_eq
  intro k hk
  rw [mfmtobin_getMsbD _ hk, mfmWord_data y x hk]

/-! ## Words of a bitcell buffer -/

namespace Mem

/-- `be16toh(*(uint16_t *)a)`. -/
def word (m : Mem) (a : Nat) : BitVec 16 := be16toh (m.ld16 a)

/-- The `n` words from address `a` on. -/
def words (m : Mem) (a n : Nat) : List (BitVec 16) :=
  (List.range n).map fun i => m.word (a + 2 * i)

@[simp] theorem length_words (m : Mem) (a n : Nat) : (m.words a n).length = n := by
  simp [words]

@[simp] theorem getElem_words (m : Mem) (a n i : Nat) (h : i < (m.words a n).length) :
    (m.words a n)[i] = m.word (a + 2 * i) := by
  simp [words]

theorem words_succ (m : Mem) (a n : Nat) : m.words a (n + 1) = m.word a :: m.words (a + 2) n := by
  rw [words, List.range_succ_eq_map, List.map_cons, List.map_map]
  refine congrArg (m.word a :: ·) (List.map_congr_left fun i _ => ?_)
  simp only [Function.comp_apply]
  congr 1
  omega

theorem words_succ_last (m : Mem) (a n : Nat) :
    m.words a (n + 1) = m.words a n ++ [m.word (a + 2 * n)] := by
  rw [words, List.range_succ, List.map_append]
  rfl

/-- The last bit of a word that is loaded without `be16toh`. -/
theorem ld16_lsb (m : Mem) (a : Nat) : (m.ld16 a).getLsbD 0 = (m.word a).getMsbD 7 := by
  rw [word, be16toh_ld16, ld16, BitVec.getLsbD_append, if_pos (by decide), BitVec.getMsbD_append,
    if_neg (by decide), BitVec.getMsbD_eq_getLsbD]
  rfl

theorem word_congr {m m' : Mem} {a : Nat} (h₀ : m a = m' a) (h₁ : m (a + 1) = m' (a + 1)) :
    m.word a = m'.word a := by
  rw [word, word, ld16, ld16, h₀, h₁]

theorem words_congr {m m' : Mem} {a n : Nat} (h : ∀ i, a ≤ i → i < a + 2 * n → m i = m' i) :
    m.words a n = m'.words a n := by
  apply List.map_congr_left
  intro i hi
  rw [List.mem_range] at hi
  exact word_congr (h _ (by omega) (by omega)) (h _ (by omega) (by omega))

/-- The words of a buffer are its bitcells, sixteen at a time. -/
theorem words_flatMap_bitsOf (m : Mem) (a n : Nat) :
    (m.words a n).flatMap bitsOf = m.bits a (2 * n) := by
  induction n generalizing a with
  | zero => rfl
  | succ n ih =>
    rw [words_succ, List.flatMap_cons, ih, word, bitsOf_be16toh_ld16, Nat.mul_succ,
      Nat.add_comm (2 * n) 2, bits_add]

@[simp] theorem word_st16_htobe16 (m : Mem) (a : Nat) (v : BitVec 16) :
    (m.st16 a (htobe16 v)).word a = v := by
  rw [word, ld16_st16, be16toh, htobe16, rev16_rev16]

/-- A store of a word elsewhere. -/
theorem word_st16_of_ne (m : Mem) {a b : Nat} (v : BitVec 16) (h : b + 2 ≤ a ∨ a + 2 ≤ b) :
    (m.st16 a v).word b = m.word b := by
  rcases h with h | h
  · exact word_congr (st16_of_lt m v (by omega)) (st16_of_lt m v (by omega))
  · exact word_congr (st16_of_le m v (by omega)) (st16_of_le m v (by omega))

/-- A store into a buffer replaces one of its words. -/
theorem words_st16_htobe16 (m : Mem) (a n k : Nat) (v : BitVec 16) :
    (m.st16 (a + 2 * k) (htobe16 v)).words a n = (m.words a n).set k v := by
  apply List.ext_getElem
  · simp
  · intro i h₁ h₂
    rw [getElem_words, List.getElem_set]
    by_cases hik : k = i
    · rw [if_pos hik, hik, word_st16_htobe16]
    · rw [if_neg hik, getElem_words]
      exact word_st16_of_ne m _ (by omega)

end Mem

/-! ## `mfm_to_bin` -/

/-- The loop of `mfm_to_bin`. -/
def mfmToBinLoop : Nat → Nat → Nat → Mem → Mem
  | 0, _, _, m => m
  | nr + 1, inp, out, m => mfmToBinLoop nr (inp + 2) (out + 1) (m.st8 out (mfmtobin (m.word inp)))

/-- `mfm_to_bin(p, nr)`. -/
def mfmToBin (m : Mem) (p nr : Nat) : Mem := mfmToBinLoop nr p p m

theorem mfmToBinLoop_frame : ∀ (nr inp out : Nat) (m : Mem) (i : Nat), i < out ∨ out + nr ≤ i →
    mfmToBinLoop nr inp out m i = m i
  | 0, _, _, _, _, _ => rfl
  | nr + 1, inp, out, m, i, h => by
    rw [mfmToBinLoop, mfmToBinLoop_frame nr (inp + 2) (out + 1) _ i (by omega)]
    exact Mem.st8_of_ne m _ (by omega)

/-- The output follows the input, so what is still to be read is not yet overwritten. -/
theorem mfmToBinLoop_bytes : ∀ (nr inp out : Nat) (m : Mem), out ≤ inp →
    (mfmToBinLoop nr inp out m).bytes out nr = (m.words inp nr).map mfmtobin
  | 0, _, _, _, _ => rfl
  | nr + 1, inp, out, m, h => by
    have hfirst := mfmToBinLoop_frame nr (inp + 2) (out + 1)
      (m.st8 out (mfmtobin (m.word inp))) out (.inl (by omega))
    rw [Mem.bytes_succ, mfmToBinLoop, hfirst, Mem.st8_self, Mem.words_succ, List.map_cons,
      mfmToBinLoop_bytes nr (inp + 2) (out + 1) _ (by omega)]
    congr 2
    exact Mem.words_congr fun i _ _ => Mem.st8_of_ne m _ (by omega)

/-- `mfm_to_bin` decodes a buffer in place. -/
theorem mfmToBin_bytes (m : Mem) (p nr : Nat) :
    (mfmToBin m p nr).bytes p nr = (m.words p nr).map mfmtobin :=
  mfmToBinLoop_bytes nr p p m (Nat.le_refl p)

/-! ## Encoding in place -/

/-- The loop of a conversion that runs from the end of a buffer and stores the word
for a byte, by what it is and what the byte before it is. -/
def encodeLoop (code : Byte → Byte → BitVec 16) : Nat → Nat → Nat → Byte → Mem → Mem
  | 0, _, _, _, m => m
  | nr + 1, inp, out, x, m =>
      let y := m (inp - 1)
      encodeLoop code nr (inp - 1) (out - 2) y (m.st16 (out - 2) (htobe16 (code y x)))

/-- The words for some bytes behind a byte `y`. -/
def codeWords (code : Byte → Byte → BitVec 16) : Byte → List Byte → List (BitVec 16)
  | _, [] => []
  | y, x :: l => code y x :: codeWords code x l

section Encode

variable {code : Byte → Byte → BitVec 16}

theorem codeWords_append_singleton (y x : Byte) (l : List Byte) :
    codeWords code y (l ++ [x]) = codeWords code y l ++ [code (l.getLastD y) x] := by
  induction l generalizing y with
  | nil => rfl
  | cons z l ih =>
    rw [List.cons_append, codeWords, ih, codeWords, List.cons_append, List.getLastD_cons]

theorem encodeLoop_frame : ∀ (k p : Nat) (x : Byte) (m : Mem) (i : Nat),
    i < p ∨ p + 2 * k ≤ i → encodeLoop code k (p + k - 1) (p + 2 * k) x m i = m i
  | 0, _, _, _, _, _ => rfl
  | k + 1, p, x, m, i, h => by
    rw [encodeLoop]
    have hrec := encodeLoop_frame k p (m (p + (k + 1) - 1 - 1))
      (m.st16 (p + 2 * (k + 1) - 2) (htobe16 (code (m (p + (k + 1) - 1 - 1)) x))) i (by omega)
    rw [show p + (k + 1) - 1 - 1 = p + k - 1 by omega,
      show p + 2 * (k + 1) - 2 = p + 2 * k by omega] at hrec ⊢
    rw [hrec]
    rcases h with h | h
    · exact Mem.st16_of_lt m _ (by omega)
    · exact Mem.st16_of_le m _ (by omega)

theorem getLastD_bytes (m : Mem) (p k : Nat) :
    (m.bytes p k).getLastD (m (p - 1)) = m (p + k - 1) := by
  cases k with
  | zero => rfl
  | succ k =>
    rw [Mem.bytes_add m p k 1]
    exact List.getLastD_concat

/-- **In-place encoding**: it runs from the end, and a word is stored only behind the
bytes that are still to be read. -/
theorem encodeLoop_words : ∀ (k p : Nat) (x : Byte) (m : Mem), (0 < k → x = m (p + k - 1)) →
    (encodeLoop code k (p + k - 1) (p + 2 * k) x m).words p k =
      codeWords code (m (p - 1)) (m.bytes p k)
  | 0, _, _, _, _ => rfl
  | k + 1, p, x, m, hx => by
    have hx : x = m (p + k) := hx (by omega)
    rw [encodeLoop, show p + (k + 1) - 1 - 1 = p + k - 1 by omega,
      show p + 2 * (k + 1) - 2 = p + 2 * k by omega]
    obtain ⟨m', hm'⟩ : ∃ m', m' = m.st16 (p + 2 * k) (htobe16 (code (m (p + k - 1)) x)) := ⟨_, rfl⟩
    have hbelow : ∀ i, i < p + 2 * k → m' i = m i := by
      intro i hi
      rw [hm']
      exact Mem.st16_of_lt m _ hi
    have hword : m'.word (p + 2 * k) = code (m (p + k - 1)) x := by
      rw [hm', Mem.word_st16_htobe16]
    have hlast := @encodeLoop_frame code k p (m (p + k - 1)) m'
    have hrest : (encodeLoop code k (p + k - 1) (p + 2 * k) (m (p + k - 1)) m').words p k =
        codeWords code (m (p - 1)) (m.bytes p k) := by
      cases k with
      | zero => rfl
      | succ k =>
        rw [encodeLoop_words (k + 1) p _ m' fun _ => (hbelow _ (by omega)).symm,
          hbelow (p - 1) (by omega), Mem.bytes_congr fun i _ hi => hbelow i (by omega)]
    rw [← hm', Mem.words_succ_last, hrest,
      Mem.word_congr (hlast _ (.inr (by omega))) (hlast _ (.inr (by omega))), hword,
      Mem.bytes_add m p k 1, Mem.bytes_succ, Mem.bytes_zero, codeWords_append_singleton,
      getLastD_bytes, hx]

end Encode

/-! ## `bin_to_mfm` -/

/-- The loop of `bin_to_mfm`, with the byte read last. -/
def binToMfmLoop : Nat → Nat → Nat → Byte → Mem → Mem
  | 0, _, _, _, m => m
  | nr + 1, inp, out, x, m =>
      let y := m (inp - 1)
      binToMfmLoop nr (inp - 1) (out - 2) y (m.st16 (out - 2) (htobe16 (mfmCode (y.setWidth 16) x)))

/-- `bin_to_mfm(p, nr)`; it reads the byte before `p`. -/
def binToMfm (m : Mem) (p nr : Nat) : Mem :=
  binToMfmLoop nr (p + nr - 1) (p + 2 * nr) (m (p + nr - 1)) m

/-- The words for some bytes behind a data bit `y`. -/
def mfmWords (y : Bool) : List Byte → List (BitVec 16)
  | [] => []
  | x :: l => mfmWord y x :: mfmWords (x.getLsbD 0) l

/-- The last bit of some bytes behind a data bit `y`. -/
def lastBit (y : Bool) (l : List Byte) : Bool := (l.getLast?.map (·.getLsbD 0)).getD y

@[simp] theorem length_mfmWords (y : Bool) (l : List Byte) : (mfmWords y l).length = l.length := by
  induction l generalizing y with
  | nil => rfl
  | cons x l ih => rw [mfmWords, List.length_cons, ih, List.length_cons]

@[simp] theorem lastBit_nil (y : Bool) : lastBit y [] = y := rfl

@[simp] theorem lastBit_cons (y : Bool) (x : Byte) (l : List Byte) :
    lastBit y (x :: l) = lastBit (x.getLsbD 0) l := by
  cases l with
  | nil => rfl
  | cons z l =>
    rw [lastBit, lastBit, List.getLast?_cons_cons, List.getLast?_cons, Option.map_some]
    rfl

/-- The loop is in-place encoding with the words of `mfmCode`. -/
theorem binToMfmLoop_eq : ∀ (k inp out : Nat) (x : Byte) (m : Mem),
    binToMfmLoop k inp out x m = encodeLoop (fun y x => mfmCode (y.setWidth 16) x) k inp out x m
  | 0, _, _, _, _ => rfl
  | k + 1, inp, out, x, m => by
    rw [binToMfmLoop, encodeLoop, binToMfmLoop_eq k]

theorem codeWords_mfmCode (y : Byte) (l : List Byte) :
    codeWords (fun y x => mfmCode (y.setWidth 16) x) y l = mfmWords (y.getLsbD 0) l := by
  induction l generalizing y with
  | nil => rfl
  | cons x l ih =>
    rw [codeWords, mfmWords, ih, mfmCode_eq, BitVec.getLsbD_setWidth]
    rfl

/-- **`bin_to_mfm`** leaves the words for the bytes it was given, behind whatever
byte is in front of them. -/
theorem binToMfm_words (m : Mem) (p nr : Nat) :
    (binToMfm m p nr).words p nr = mfmWords ((m (p - 1)).getLsbD 0) (m.bytes p nr) := by
  rw [binToMfm, binToMfmLoop_eq, encodeLoop_words nr p _ m fun _ => rfl, codeWords_mfmCode]

theorem binToMfm_frame (m : Mem) (p nr : Nat) {i : Nat} (h : i < p ∨ p + 2 * nr ≤ i) :
    binToMfm m p nr i = m i := by
  rw [binToMfm, binToMfmLoop_eq]
  exact encodeLoop_frame nr p _ m i h

/-! ## `mfm_check` -/

/-- The loop of `mfm_check`: the words it reports, by their number. -/
def mfmCheckLoop (m : Mem) (p : Nat) : Nat → Nat → BitVec 16 → List Nat
  | 0, _, _ => []
  | nr + 1, i, a =>
      let b := m.word (p + 2 * i)
      let c := mfmCode a (mfmtobin b)
      (if b ≠ c then [i] else []) ++ mfmCheckLoop m p nr (i + 1) b

/-- `mfm_check(p, nr)`; the word before `p` is read without `be16toh`. -/
def mfmCheck (m : Mem) (p nr : Nat) : List Nat := mfmCheckLoop m p nr 0 (m.ld16 (p - 2))

/-- Nothing is reported where each word is a code word behind the one before it. -/
theorem mfmCheckLoop_eq_nil (m : Mem) (p : Nat) : ∀ (nr i : Nat) (a : BitVec 16) (l : List Byte),
    (m.words (p + 2 * i) nr) = mfmWords (a.getLsbD 0) l → mfmCheckLoop m p nr i a = []
  | 0, _, _, _, _ => rfl
  | nr + 1, i, a, l, h => by
    rw [Mem.words_succ] at h
    cases l with
    | nil => cases h
    | cons x l =>
      obtain ⟨hword, hrest⟩ := List.cons.inj h
      rw [mfmCheckLoop, hword, mfmtobin_mfmWord, mfmCode_eq, if_neg (fun hne => hne rfl),
        List.nil_append]
      refine mfmCheckLoop_eq_nil m p nr (i + 1) _ l ?_
      rw [mfmWord_lsb]
      exact hrest

/-- Nothing is reported only where each word is the code of its own data bits. -/
theorem mfmCheckLoop_words (m : Mem) (p : Nat) : ∀ (nr i : Nat) (a : BitVec 16),
    mfmCheckLoop m p nr i a = [] →
    m.words (p + 2 * i) nr = mfmWords (a.getLsbD 0) ((m.words (p + 2 * i) nr).map mfmtobin)
  | 0, _, _, _ => rfl
  | nr + 1, i, a, h => by
    rw [mfmCheckLoop] at h
    obtain ⟨hfirst, hrest⟩ := List.append_eq_nil_iff.mp h
    have hword : m.word (p + 2 * i) = mfmWord (a.getLsbD 0) (mfmtobin (m.word (p + 2 * i))) := by
      by_contra hne
      rw [mfmCode_eq, if_pos hne] at hfirst
      cases hfirst
    have hlater := mfmCheckLoop_words m p nr (i + 1) _ hrest
    rw [hword, mfmWord_lsb] at hlater
    rw [Mem.words_succ, List.map_cons, mfmWords, ← hword]
    exact congrArg (_ :: ·) hlater

theorem mfmCheck_words {m : Mem} {p nr : Nat} (h : mfmCheck m p nr = []) :
    m.words p nr = mfmWords ((m.ld16 (p - 2)).getLsbD 0) ((m.words p nr).map mfmtobin) :=
  mfmCheckLoop_words m p nr 0 _ h

theorem mfmCheck_eq_nil {m : Mem} {p nr : Nat} {l : List Byte}
    (h : m.words p nr = mfmWords ((m.ld16 (p - 2)).getLsbD 0) l) : mfmCheck m p nr = [] :=
  mfmCheckLoop_eq_nil m p nr 0 _ l h

end FlashFloppyTestbed
