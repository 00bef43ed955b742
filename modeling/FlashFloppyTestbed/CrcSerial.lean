/-
  CrcSerial.lean --- `src/crc.c` against a bit-serial CRC.

  The bit-serial CRC is a shift register with the polynomial x^16+x^12+x^5+1.  An entry of
  `crc16tab` is what its index does to the empty register, so that one pass of the loop is
  eight steps (`crc16Step_eq`).  What is known of such registers then holds of
  `crc16_ccitt`: it computes a remainder of polynomials, and no burst of up to 16 bits goes
  undetected.
-/
import FlashFloppyTestbed.Crc
import FlashFloppyTestbed.Foundation.Blocks
import FlashFloppyTestbed.Foundation.Remainder

set_option autoImplicit false

namespace FlashFloppyTestbed

open FlashFloppyTestbed.Foundation Polynomial

/-- x^16+x^12+x^5+1, below its highest power. -/
def crcPoly : BitVec 16 := 0x1021

/-- The CRC of some bytes, one bit at a time, most significant bit first. -/
def crcSerial (buf : List Byte) (crc : BitVec 16) : BitVec 16 :=
  lfsr crcPoly crc (buf.flatMap bitsOf)

/-- **The table**: what a byte does to the empty register. -/
theorem crc16tab_eq : ∀ x : Byte, crc16tab x = lfsr crcPoly 0#16 (bitsOf x) := by
  decide +kernel

/-- One pass of the loop is eight steps of the register. -/
theorem crc16Step_eq (crc : BitVec 16) (b : Byte) :
    crc16Step crc b = lfsr crcPoly crc (bitsOf b) := by
  have hhigh : (bitsOf crc).take 8 = bitsOf ((crc >>> 8).setWidth 8 : Byte) := by
    refine List.ext_getElem (by simp) fun i hi _ => ?_
    have hi : i < 8 := by simpa using hi
    rw [List.getElem_take, getElem_bitsOf, getElem_bitsOf, BitVec.getMsbD_eq_getLsbD,
      BitVec.getMsbD_eq_getLsbD, BitVec.getLsbD_setWidth, BitVec.getLsbD_ushiftRight,
      show 8 + (8 - 1 - i) = 16 - 1 - i by omega]
    simp [hi, show i < 16 by omega, show 7 - i < 8 by omega]
  rw [lfsr_slice crcPoly crc (bitsOf b) (by simp), length_bitsOf, hhigh, ← bitsOf_xor,
    ← crc16tab_eq, crc16Step]

theorem crc16Ccitt_eq (buf : List Byte) : ∀ crc, crc16Ccitt buf crc = crcSerial buf crc := by
  induction buf with
  | nil => exact fun _ => rfl
  | cons b buf ih =>
    intro crc
    rw [crcSerial, List.flatMap_cons, lfsr_append, ← crc16Step_eq]
    exact ih _

theorem generator_crcPoly : generator crcPoly = X ^ 16 + X ^ 12 + X ^ 5 + 1 := by
  have hbits : bitsOf crcPoly = [false, false, false, true, false, false, false, false, false,
      false, true, false, false, false, false, true] := by
    decide
  rw [generator, regPoly, hbits]
  simp only [polyOf, List.foldl_cons, List.foldl_nil, bit, Bool.false_eq_true, if_false, if_true,
    map_zero, map_one]
  ring

/-- **`crc16_ccitt` is the bit-serial CRC**, which is a remainder of polynomials, and it
detects every burst of up to 16 bits. -/
theorem crc16_ccitt_serial :
    (∀ (buf : List Byte) (crc : BitVec 16), crc16Ccitt buf crc = crcSerial buf crc ∧
      regPoly (crc16Ccitt buf crc) =
        (X ^ (8 * buf.length) * regPoly crc + X ^ 16 * polyOf (buf.flatMap bitsOf)) %ₘ
          (X ^ 16 + X ^ 12 + X ^ 5 + 1)) ∧
    ∀ (buf buf' : List Byte) (k : Nat) (crc : BitVec 16), buf.length = buf'.length → buf ≠ buf' →
      (∀ i, i < k ∨ k + 16 ≤ i → (buf.flatMap bitsOf)[i]? = (buf'.flatMap bitsOf)[i]?) →
      crc16Ccitt buf crc ≠ crc16Ccitt buf' crc := by
  refine ⟨fun buf crc => ⟨crc16Ccitt_eq buf crc, ?_⟩, fun buf buf' k crc hlen hne hburst => ?_⟩
  · have hbits : (buf.flatMap bitsOf).length = 8 * buf.length := length_blocks length_bitsOf buf
    rw [crc16Ccitt_eq, crcSerial, lfsr_remainder, hbits, generator_crcPoly]
  · rw [crc16Ccitt_eq, crc16Ccitt_eq]
    refine lfsr_burst (by decide) ?_ ?_ hburst crc
    · rw [length_blocks length_bitsOf, length_blocks length_bitsOf, hlen]
    · exact fun heq => hne (blocks_injective length_bitsOf (fun _ _ => bitsOf_injective) hlen heq)

/-- Two bytes apart in the two bits where they meet. -/
theorem crc16_ccitt_serial_bytes :
    crc16Ccitt [0xa1, 0xfe] 0xffff ≠ crc16Ccitt [0xa0, 0x7e] 0xffff :=
  crc16_ccitt_serial.2 [0xa1, 0xfe] [0xa0, 0x7e] 0 0xffff rfl (by decide) fun i hi => by
    have hge : 16 ≤ i := by omega
    rw [List.getElem?_eq_none (by exact hge), List.getElem?_eq_none (by exact hge)]

end FlashFloppyTestbed
