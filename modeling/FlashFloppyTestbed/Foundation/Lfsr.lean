/-
  Foundation/Lfsr.lean --- linear feedback shift registers that divide a bit string.

  The register is shifted left; when the bit shifted out differs from the bit fed in,
  the polynomial is added.  A step is linear in the register and the bit together
  (`lfsr_xor`), which has three consequences.  A register may be fed several bits at a
  time by way of a table of what they do to an empty one (`lfsr_slice`).  If the
  polynomial has a constant term, a step loses nothing (`lfsrStep_eq_zero`).  And what is
  fed into an empty register within as many steps as it has bits is still visible in it,
  so that two bit strings that differ within such a run leave different registers
  (`lfsr_burst`).

  Nothing in this file is about a particular polynomial or width.
-/
import FlashFloppyTestbed.Foundation.Bits
import Mathlib.Data.List.Induction

set_option autoImplicit false

namespace FlashFloppyTestbed.Foundation

section Lfsr

variable {w : Nat} (poly : BitVec w)

/-- One bit, most significant end first. -/
def lfsrStep (r : BitVec w) (b : Bool) : BitVec w :=
  if r.msb ^^ b then (r <<< 1) ^^^ poly else r <<< 1

/-- A bit string, first bit first. -/
def lfsr (r : BitVec w) (l : List Bool) : BitVec w := l.foldl (lfsrStep poly) r

@[simp] theorem lfsr_nil (r : BitVec w) : lfsr poly r [] = r := rfl

@[simp] theorem lfsr_cons (r : BitVec w) (b : Bool) (l : List Bool) :
    lfsr poly r (b :: l) = lfsr poly (lfsrStep poly r b) l := rfl

theorem lfsr_append (r : BitVec w) (l₁ l₂ : List Bool) :
    lfsr poly r (l₁ ++ l₂) = lfsr poly (lfsr poly r l₁) l₂ :=
  List.foldl_append

/-! ## Linearity -/

theorem lfsrStep_xor (r r' : BitVec w) (b b' : Bool) :
    lfsrStep poly (r ^^^ r') (b ^^ b') = lfsrStep poly r b ^^^ lfsrStep poly r' b' := by
  have hshift : (r ^^^ r') <<< 1 = (r <<< 1) ^^^ (r' <<< 1) := BitVec.shiftLeft_xor_distrib ..
  have hbit : (r.msb ^^ r'.msb ^^ (b ^^ b')) = ((r.msb ^^ b) ^^ (r'.msb ^^ b')) := by
    cases r.msb <;> cases r'.msb <;> cases b <;> cases b' <;> rfl
  rw [lfsrStep, lfsrStep, lfsrStep, BitVec.msb_xor, hbit, hshift]
  cases r.msb ^^ b <;> cases r'.msb ^^ b'
  · rfl
  · exact BitVec.xor_assoc ..
  · show (r <<< 1 ^^^ r' <<< 1) ^^^ poly = (r <<< 1 ^^^ poly) ^^^ r' <<< 1
    rw [BitVec.xor_assoc, BitVec.xor_comm (r' <<< 1), ← BitVec.xor_assoc]
  · show r <<< 1 ^^^ r' <<< 1 = (r <<< 1 ^^^ poly) ^^^ (r' <<< 1 ^^^ poly)
    rw [BitVec.xor_comm (r' <<< 1) poly, BitVec.xor_assoc (r <<< 1) poly,
      ← BitVec.xor_assoc poly poly, BitVec.xor_self, BitVec.zero_xor]

/-- **The sum of two registers** is the register of the sum. -/
theorem lfsr_xor (l : List Bool) : ∀ (r r' : BitVec w) (l' : List Bool), l.length = l'.length →
    lfsr poly (r ^^^ r') (List.zipWith xor l l') = lfsr poly r l ^^^ lfsr poly r' l' := by
  induction l with
  | nil =>
    intro r r' l' hlen
    rw [List.length_nil] at hlen
    rw [List.length_eq_zero_iff.mp hlen.symm]
    rfl
  | cons b l ih =>
    intro r r' l' hlen
    obtain ⟨b', l', rfl⟩ := List.exists_cons_of_length_eq_add_one hlen.symm
    rw [List.zipWith_cons_cons, lfsr_cons, lfsrStep_xor, ih _ _ _ (Nat.succ.inj hlen)]
    rfl

/-- Fed with what it shifts out, a register is shifted. -/
theorem lfsrStep_msb (r : BitVec w) : lfsrStep poly r r.msb = r <<< 1 := by
  rw [lfsrStep, Bool.xor_self]
  rfl

/-- **Several bits at a time**: what they do, together with those shifted out, to an empty
register, and the shift. -/
theorem lfsr_slice (r : BitVec w) (l : List Bool) (hl : l.length ≤ w) :
    lfsr poly r l =
      lfsr poly 0#w (List.zipWith xor ((bitsOf r).take l.length) l) ^^^ (r <<< l.length) := by
  induction l using List.reverseRecOn with
  | nil => simp
  | append_singleton l b ih =>
    rw [List.length_append, List.length_singleton] at hl
    have htake : (bitsOf r).take (l.length + 1) =
        (bitsOf r).take l.length ++ [r.getMsbD l.length] := by
      rw [List.take_succ_eq_append_getElem (by rw [length_bitsOf]; omega), getElem_bitsOf]
    have hlen : ((bitsOf r).take l.length).length = l.length := by
      rw [List.length_take, length_bitsOf]
      omega
    have hmsb : (r <<< l.length).msb = r.getMsbD l.length := by
      rw [BitVec.msb, BitVec.getMsbD_shiftLeft, Nat.zero_add]
    -- the bit fed in, split between the two registers
    have hsplit : ∀ x : BitVec w, lfsrStep poly (x ^^^ r <<< l.length) b =
        lfsrStep poly x (r.getMsbD l.length ^^ b) ^^^ r <<< (l.length + 1) := by
      intro x
      have hb : b = ((r.getMsbD l.length ^^ b) ^^ r.getMsbD l.length) := by
        cases b <;> cases r.getMsbD l.length <;> rfl
      conv => lhs; rw [hb, lfsrStep_xor, ← hmsb, lfsrStep_msb, ← BitVec.shiftLeft_add]
      rw [hmsb]
    rw [lfsr_append, ih (by omega), lfsr_cons, lfsr_nil, hsplit, List.length_append,
      List.length_singleton, htake, List.zipWith_append hlen, lfsr_append]
    rfl

/-! ## Nothing is lost -/

theorem lfsrStep_zero_false : lfsrStep poly 0#w false = 0#w := by
  simp [lfsrStep]

theorem lfsr_zero_replicate (n : Nat) : lfsr poly 0#w (List.replicate n false) = 0#w := by
  induction n with
  | zero => rfl
  | succ n ih => rw [List.replicate_succ, lfsr_cons, lfsrStep_zero_false, ih]

variable {poly}

theorem getLsbD_zero_lfsrStep (hodd : poly.getLsbD 0 = true) (r : BitVec w) (b : Bool) :
    (lfsrStep poly r b).getLsbD 0 = (r.msb ^^ b) := by
  rw [lfsrStep]
  cases r.msb ^^ b <;> simp [hodd]

/-- Only an empty register is emptied by a clear bit. -/
theorem lfsrStep_eq_zero (hodd : poly.getLsbD 0 = true) {r : BitVec w}
    (h : lfsrStep poly r false = 0#w) : r = 0#w := by
  have hmsb : r.msb = false := by
    have hlow := getLsbD_zero_lfsrStep hodd r false
    rw [h, BitVec.getLsbD_zero, Bool.xor_false] at hlow
    exact hlow.symm
  rw [lfsrStep, hmsb, Bool.xor_false, if_neg Bool.false_ne_true] at h
  apply BitVec.eq_of_getLsbD_eq
  intro i hi
  rw [BitVec.getLsbD_zero]
  by_cases hlast : i = w - 1
  · rw [hlast, ← BitVec.msb_eq_getLsbD_last, hmsb]
  · have hbit := congrArg (BitVec.getLsbD · (i + 1)) h
    simp only [BitVec.getLsbD_shiftLeft, BitVec.getLsbD_zero] at hbit
    simpa [show i + 1 < w by omega] using hbit

theorem lfsr_replicate_ne_zero (hodd : poly.getLsbD 0 = true) (n : Nat) : ∀ {r : BitVec w},
    r ≠ 0#w → lfsr poly r (List.replicate n false) ≠ 0#w := by
  induction n with
  | zero => exact fun h => h
  | succ n ih =>
    intro r h
    rw [List.replicate_succ, lfsr_cons]
    exact ih fun hzero => h (lfsrStep_eq_zero hodd hzero)

/-- A set bit among the lowest moves up by one at most. -/
theorem exists_low_lfsrStep (hodd : poly.getLsbD 0 = true) {n : Nat} (hn : n + 1 < w) {r : BitVec w}
    (h : ∃ i, i ≤ n ∧ r.getLsbD i = true) (b : Bool) :
    ∃ i, i ≤ n + 1 ∧ (lfsrStep poly r b).getLsbD i = true := by
  obtain ⟨i, hi, hbit⟩ := h
  cases hfeed : r.msb ^^ b with
  | true => exact ⟨0, Nat.zero_le _, by rw [getLsbD_zero_lfsrStep hodd, hfeed]⟩
  | false =>
    refine ⟨i + 1, by omega, ?_⟩
    rw [lfsrStep, hfeed, if_neg Bool.false_ne_true, BitVec.getLsbD_shiftLeft]
    simp [hbit, show i + 1 < w by omega]

theorem exists_low_lfsr (hodd : poly.getLsbD 0 = true) (l : List Bool) : ∀ (n : Nat) {r : BitVec w},
    n + l.length < w → (∃ i, i ≤ n ∧ r.getLsbD i = true) →
      ∃ i, i ≤ n + l.length ∧ (lfsr poly r l).getLsbD i = true := by
  induction l with
  | nil => exact fun n r _ h => h
  | cons b l ih =>
    intro n r hlen h
    rw [List.length_cons] at hlen ⊢
    obtain ⟨i, hi, hbit⟩ := ih (n + 1) (by omega) (exists_low_lfsrStep hodd (by omega) h b)
    exact ⟨i, by omega, hbit⟩

/-- A burst into an empty register leaves something behind. -/
theorem lfsr_burst_ne_zero (hodd : poly.getLsbD 0 = true) (m n : Nat) {mid : List Bool}
    (hmid : mid.length < w) :
    lfsr poly 0#w (List.replicate m false ++ true :: mid ++ List.replicate n false) ≠ 0#w := by
  have hfirst : (lfsrStep poly 0#w true).getLsbD 0 = true := by
    rw [getLsbD_zero_lfsrStep hodd]
    simp
  obtain ⟨i, -, hbit⟩ := exists_low_lfsr hodd mid 0 (by omega) ⟨0, Nat.le_refl 0, hfirst⟩
  rw [lfsr_append, lfsr_append, lfsr_zero_replicate, lfsr_cons]
  refine lfsr_replicate_ne_zero hodd n fun hzero => ?_
  rw [hzero, BitVec.getLsbD_zero] at hbit
  cases hbit

/-- A bit string that is clear outside a run of `n + 1` bits, and not everywhere. -/
theorem exists_burst {e : List Bool} {k n : Nat} (hset : true ∈ e)
    (h : ∀ i, i < k ∨ k + (n + 1) ≤ i → e.getD i false = false) :
    ∃ m mid n', mid.length ≤ n ∧
      e = List.replicate m false ++ true :: mid ++ List.replicate n' false := by
  obtain ⟨pre, rest, rfl, hpre⟩ := List.eq_append_cons_of_mem hset
  have hclear : pre = List.replicate pre.length false := by
    refine List.eq_replicate_of_mem fun b hb => ?_
    cases b with
    | false => rfl
    | true => exact absurd hb hpre
  have hfrom : k ≤ pre.length := by
    by_contra hlt
    have hbit := h pre.length (.inl (by omega))
    rw [List.getD_append_right _ _ _ _ (Nat.le_refl _), Nat.sub_self] at hbit
    cases hbit
  have hbehind : rest.drop n = List.replicate (rest.drop n).length false := by
    refine List.eq_replicate_of_mem fun b hb => ?_
    obtain ⟨i, hi, rfl⟩ := List.mem_iff_getElem.mp hb
    rw [List.length_drop] at hi
    have hbit := h (pre.length + (n + i + 1)) (.inr (by omega))
    rw [List.getD_append_right _ _ _ _ (Nat.le_add_right _ _), Nat.add_sub_cancel_left,
      List.getD_cons_succ, List.getD_eq_getElem _ _ (by omega)] at hbit
    rw [List.getElem_drop]
    exact hbit
  refine ⟨pre.length, rest.take n, (rest.drop n).length, List.length_take_le _ _, ?_⟩
  rw [← hclear, ← hbehind, List.append_assoc, List.cons_append, List.take_append_drop]

/-- **Bursts are detected**: bit strings that differ, within a run of as many bits as the
register has, leave different registers. -/
theorem lfsr_burst (hodd : poly.getLsbD 0 = true) {l l' : List Bool} (hlen : l.length = l'.length)
    (hne : l ≠ l') {k : Nat} (h : ∀ i, i < k ∨ k + w ≤ i → l[i]? = l'[i]?) (r : BitVec w) :
    lfsr poly r l ≠ lfsr poly r l' := by
  obtain ⟨n, rfl⟩ : ∃ n, w = n + 1 := by
    cases w with
    | zero =>
      rw [BitVec.getLsbD_of_ge _ _ (Nat.le_refl 0)] at hodd
      cases hodd
    | succ n => exact ⟨n, rfl⟩
  have hget : ∀ i, (List.zipWith xor l l').getD i false = (l.getD i false ^^ l'.getD i false) := by
    intro i
    rw [List.getD_eq_getElem?_getD, List.getD_eq_getElem?_getD, List.getD_eq_getElem?_getD,
      List.getElem?_zipWith]
    by_cases hi : i < l.length
    · rw [List.getElem?_eq_getElem hi, List.getElem?_eq_getElem (hlen ▸ hi)]
      rfl
    · rw [List.getElem?_eq_none (Nat.le_of_not_lt hi),
        List.getElem?_eq_none (hlen ▸ Nat.le_of_not_lt hi)]
      rfl
  have hset : true ∈ List.zipWith xor l l' := by
    by_contra hnot
    refine hne (List.ext_getElem hlen fun i hi hi' => ?_)
    have hboth : i < (List.zipWith xor l l').length := by
      rw [List.length_zipWith]
      omega
    have hmem : (List.zipWith xor l l')[i] ≠ true :=
      fun heq => hnot (heq ▸ List.getElem_mem _)
    rw [List.getElem_zipWith] at hmem
    revert hmem
    cases l[i] <;> cases l'[i] <;> decide
  obtain ⟨m, mid, n', hmid, hburst⟩ := exists_burst (k := k) (n := n) hset fun i hi => by
    rw [hget, List.getD_eq_getElem?_getD, List.getD_eq_getElem?_getD, h i hi, Bool.xor_self]
  intro heq
  have hzero : lfsr poly 0#(n + 1) (List.zipWith xor l l') = 0#(n + 1) := by
    rw [← BitVec.xor_self (x := r), lfsr_xor poly l r r l' hlen, heq, BitVec.xor_self,
      BitVec.xor_self]
  rw [hburst] at hzero
  exact lfsr_burst_ne_zero hodd m n' (Nat.lt_succ_of_le hmid) hzero

end Lfsr

end FlashFloppyTestbed.Foundation
