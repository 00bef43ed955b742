/-
  Disk/Residue.lean --- the readers' test for a CRC, and the CRC the writers store.

  The writers compute a CRC and store it high byte first; the readers compute the CRC over a
  record that includes the stored one, and expect zero.  The two agree: the remainder is
  zero if and only if the record ends with the bytes that `Out.putCrc` stores behind the
  others (`crc_residue`).
-/
import FlashFloppyTestbed.Disk.IbmFm

set_option autoImplicit false

namespace FlashFloppyTestbed

open FlashFloppyTestbed.Foundation FlashFloppyTestbed.Floppy

/-- Behind the `n` bytes at `p` their CRC is stored. -/
def CrcStored (m : Mem) (p n : Nat) : Prop :=
  m.bytes (p + n) 2 = crcBytes (crc16Ccitt (m.bytes p n) 0xffff)

instance (m : Mem) (p n : Nat) : Decidable (CrcStored m p n) :=
  inferInstanceAs (Decidable (_ = _))

section Stored

variable (m : Mem) (p n : Nat)

/-- It is stored where storing it changes nothing. -/
theorem putCrc_eq_self_iff : ((Out.mk m (p + n)).putCrc p).mem = m ↔ CrcStored m p n := by
  obtain ⟨crc, hcrc⟩ : ∃ crc, crc = crc16Ccitt (m.bytes p n) 0xffff := ⟨_, rfl⟩
  have hput : ((Out.mk m (p + n)).putCrc p).mem =
      (m.st8 (p + n) ((crc >>> 8).setWidth 8)).st8 (p + n + 1) (crc.setWidth 8) := by
    rw [hcrc, Out.putCrc, Nat.add_sub_cancel_left]
    rfl
  have hstored : CrcStored m p n ↔
      m (p + n) = (crc >>> 8).setWidth 8 ∧ m (p + n + 1) = crc.setWidth 8 := by
    rw [CrcStored, ← hcrc, crcBytes, Mem.bytes_succ, Mem.bytes_succ, Mem.bytes_zero]
    simp
  rw [hput, hstored]
  constructor
  · intro h
    refine ⟨?_, ?_⟩
    · rw [← congrFun h (p + n), Mem.st8_of_ne _ _ (by omega), Mem.st8_self]
    · rw [← congrFun h (p + n + 1), Mem.st8_self]
  · rintro ⟨hhigh, hlow⟩
    funext a
    by_cases hsecond : a = p + n + 1
    · rw [hsecond, Mem.st8_self, hlow]
    · rw [Mem.st8_of_ne _ _ hsecond]
      by_cases hfirst : a = p + n
      · rw [hfirst, Mem.st8_self, hhigh]
      · rw [Mem.st8_of_ne _ _ hfirst]

/-- **The readers' test.** -/
theorem crc16Ccitt_eq_zero_iff :
    crc16Ccitt (m.bytes p (n + 2)) 0xffff = 0 ↔ CrcStored m p n := by
  rw [Mem.bytes_add, crc16Ccitt_append_eq_zero_iff _ _ _ (Mem.length_bytes _ _ _)]
  rfl

end Stored

/-- What is rejected if one of three tests fails is accepted if all of them pass. -/
theorem ite_reject {α : Type} {a b c c' : Prop} [Decidable a] [Decidable b] [Decidable c]
    [Decidable c'] (hc : c ↔ c') (x y : α) :
    (if ¬ a ∨ ¬ b ∨ ¬ c then x else y) = if a ∧ b ∧ c' then y else x := by
  by_cases hall : a ∧ b ∧ c'
  · rw [if_pos hall, if_neg]
    rintro (ha | hb | hrest)
    · exact ha hall.1
    · exact hb hall.2.1
    · exact hrest (hc.mpr hall.2.2)
  · rw [if_neg hall, if_pos]
    rwa [← hc, not_and_or, not_and_or] at hall

/-- **The residue is zero exactly behind a correct CRC**, so that the tests of
`ibm_mfm_search`, `ibm_mfm_read_sector`, `ibm_fm_search` and `ibm_fm_read_sector` are that
the record ends with the CRC that the writers would have stored there. -/
theorem crc_residue :
    (∀ (l : List Byte) (crc : BitVec 16) (a b : Byte), crc16Ccitt (l ++ [a, b]) crc = 0 ↔
      a = (crc16Ccitt l crc >>> 8).setWidth 8 ∧ b = (crc16Ccitt l crc).setWidth 8) ∧
    (∀ (m : Mem) (p n : Nat), CrcStored m p n ↔ ((Out.mk m (p + n)).putCrc p).mem = m) ∧
    (∀ (d : Disk) (resume : Nat → Nat) (p : Nat) (idam : Idam) (t₀ fuel t : Nat) (m : Mem)
        (warned : Bool), ibmMfmSearch d resume p idam t₀ (fuel + 1) t m warned =
      (d.floppyRead m p 10 t).bind fun rd =>
        let m := mfmToBin rd.1 p 10
        let warned := warned || decide (2 ≤ d.indexCount t₀ t)
        if m.bytes p 4 = mfmIdamMark ∧ m.bytes (p + 4) 4 = idam.bytes ∧ CrcStored m p 8 then
          some ⟨m, rd.2 + 160, warned⟩
        else ibmMfmSearch d resume p idam t₀ fuel (resume (rd.2 + 160)) m warned) ∧
    (∀ (d : Disk) (resume : Nat → Nat) (fuel : Nat) (m : Mem) (p₁ p₂ : Nat) (idam : Idam)
        (t : Nat), ibmMfmReadSector d resume fuel m p₁ p₂ idam t =
      (ibmMfmSearch d resume p₁ idam t fuel t m false).bind fun f =>
        let damBytes := 4 + idam.size + 2
        (d.floppyRead f.mem p₂ damBytes (resume f.endPos)).map fun rd =>
          let m := mfmToBin rd.1 p₂ damBytes
          { data := m.bytes (p₂ + 4) idam.size
            warned := f.warned || decide (mfmCheck rd.1 (p₂ + 6) (damBytes - 3) ≠ []) ||
              decide (m.bytes p₂ 3 ≠ mfmIdamMark.take 3) || decide (m (p₂ + 3) ≠ 0xfb) ||
              decide (¬ CrcStored m p₂ (4 + idam.size)) }) ∧
    (∀ (d : Disk) (resume : Nat → Nat) (p : Nat) (idam : Idam) (t₀ fuel t : Nat) (m : Mem)
        (warned : Bool), ibmFmSearch d resume p idam t₀ (fuel + 1) t m warned =
      (d.floppyReadFm m p 8 t).bind fun rd =>
        let m := fmToBin rd.1 p 8
        let warned := warned || decide (2 ≤ d.indexCount t₀ t)
        if m (p + 1) = 0xfe ∧ m.bytes (p + 2) 4 = idam.bytes ∧ CrcStored m (p + 1) 5 then
          some ⟨m, rd.2 + 128, warned⟩
        else ibmFmSearch d resume p idam t₀ fuel (resume (rd.2 + 128)) m warned) ∧
    ∀ (m : Mem) (p : Nat) (idam : Idam), ibmFmCheckDam m p idam =
      let damBytes := 2 + idam.size + 2
      let m' := fmToBin m p damBytes
      { data := m'.bytes (p + 2) idam.size
        warned := decide (fmCheck m (p + 4) (damBytes - 2) ≠ []) || decide (m' (p + 1) ≠ 0xfb) ||
          decide (¬ CrcStored m' (p + 1) (1 + idam.size)) } := by
  refine ⟨fun l crc a b => ?_, fun m p n => (putCrc_eq_self_iff m p n).symm, ?_, ?_, ?_, ?_⟩
  · rw [crc16Ccitt_append_eq_zero_iff l [a, b] crc rfl, crcBytes]
    simp
  · intro d resume p idam t₀ fuel t m warned
    rw [ibmMfmSearch]
    congr 1
    funext rd
    exact ite_reject (crc16Ccitt_eq_zero_iff _ _ _) _ _
  · intro d resume fuel m p₁ p₂ idam t
    simp only [ibmMfmReadSector, ← crc16Ccitt_eq_zero_iff, ne_eq]
  · intro d resume p idam t₀ fuel t m warned
    rw [ibmFmSearch]
    congr 1
    funext rd
    exact ite_reject (crc16Ccitt_eq_zero_iff _ _ _) _ _
  · intro m p idam
    have hlen : 2 + idam.size + 2 - 1 = 1 + idam.size + 2 := by omega
    simp only [ibmFmCheckDam, ← crc16Ccitt_eq_zero_iff, ne_eq, hlen]

end FlashFloppyTestbed
