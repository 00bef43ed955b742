/-
  Disk/AmigaRead.lean --- `amiga_track_read` on the revolution that
  `amiga_track_write` leaves.

  The reader looks at data bits only: what it computes from a long in memory, it
  computes from the long that was emitted (`SectorAt`).  Checksums are exclusive
  ors of longs, so they commute with the masks and the even/odd split; decoding a
  sector in place leaves the sectors behind it alone (`AmigaRead.sector_spec`).
-/
import FlashFloppyTestbed.Disk.AmigaDisk

set_option autoImplicit false

namespace FlashFloppyTestbed

open FlashFloppyTestbed.Foundation FlashFloppyTestbed.Floppy

/-! ## Putting longs together -/

theorem mergeBits_getMsbD (x y : BitVec 32) {k : Nat} (hk : k < 16) :
    (mergeBits x y).getMsbD (2 * k) = x.getMsbD (2 * k + 1) ∧
      (mergeBits x y).getMsbD (2 * k + 1) = y.getMsbD (2 * k + 1) := by
  simp only [mergeBits, BitVec.getMsbD_or, BitVec.getMsbD_shiftLeft, BitVec.getMsbD_and,
    getMsbD_dataBits_odd hk, getMsbD_dataBits_even, show 2 * k + 1 + 1 = 2 * (k + 1) by omega]
  simp

/-- Two longs with these bits are put together to this one. -/
theorem eq_mergeBits {x y z : BitVec 32}
    (heven : ∀ k, k < 16 → z.getMsbD (2 * k) = x.getMsbD (2 * k + 1))
    (hodd : ∀ k, k < 16 → z.getMsbD (2 * k + 1) = y.getMsbD (2 * k + 1)) : z = mergeBits x y := by
  apply BitVec.eq_of_getMsbD_eq
  intro i hi
  rcases Nat.mod_two_eq_zero_or_one i with hpar | hpar
  · obtain ⟨k, rfl⟩ : ∃ k, i = 2 * k := ⟨i / 2, by omega⟩
    rw [heven k (by omega), (mergeBits_getMsbD x y (by omega)).1]
  · obtain ⟨k, rfl⟩ : ∃ k, i = 2 * k + 1 := ⟨i / 2, by omega⟩
    rw [hodd k (by omega), (mergeBits_getMsbD x y (by omega)).2]

theorem rev32_getMsbD (x : BitVec 32) {i : Nat} (hi : i < 32) :
    (rev32 x).getMsbD i = x.getMsbD (8 * (3 - i / 8) + i % 8) := by
  have hbyte : ∀ s j, s ≤ 24 → j < 8 →
      (x.extractLsb' s 8).getMsbD j = x.getMsbD (24 - s + j) := by
    intro s j hs hj
    have hlt : 24 - s + j < 32 := by omega
    rw [BitVec.getMsbD_eq_getLsbD, BitVec.getLsbD_extractLsb', BitVec.getMsbD_eq_getLsbD,
      decide_eq_true hj, decide_eq_true hlt, decide_eq_true (by omega), Bool.true_and,
      Bool.true_and, Bool.true_and]
    congr 1
    omega
  rw [rev32, BitVec.getMsbD_append, BitVec.getMsbD_append, BitVec.getMsbD_append]
  split_ifs <;> rw [hbyte _ _ (by omega) (by omega)] <;> congr 1 <;> omega

/-- Longs may be put together in either byte order. -/
theorem rev32_mergeBits (x y : BitVec 32) :
    rev32 (mergeBits x y) = mergeBits (rev32 x) (rev32 y) := by
  refine eq_mergeBits (fun k hk => ?_) fun k hk => ?_
  · rw [rev32_getMsbD _ (by omega), rev32_getMsbD _ (by omega),
      show 8 * (3 - 2 * k / 8) + 2 * k % 8 = 2 * (4 * (3 - k / 4) + k % 4) by omega,
      (mergeBits_getMsbD x y (by omega)).1]
    congr 1
    omega
  · rw [rev32_getMsbD _ (by omega), rev32_getMsbD _ (by omega),
      show 8 * (3 - (2 * k + 1) / 8) + (2 * k + 1) % 8 = 2 * (4 * (3 - k / 4) + k % 4) + 1 by omega,
      (mergeBits_getMsbD x y (by omega)).2]

theorem getLong_eq (m : Mem) (p : Nat) : getLong m p = mergeBits (m.long p) (m.long (p + 4)) :=
  rev32_mergeBits _ _

/-- The even and the odd bits of a long, put together. -/
theorem mergeBits_even_odd (l : BitVec 32) : mergeBits (even l) (odd l) = l := by
  refine (eq_mergeBits (z := l) (fun k hk => ?_) fun k hk => rfl).symm
  have hlt : 2 * k + 1 < 32 := by omega
  rw [even, BitVec.getMsbD_ushiftRight]
  simp [hlt]

theorem mergeBits_congr {x x' y y' : BitVec 32} (hx : x &&& dataBits = x' &&& dataBits)
    (hy : y &&& dataBits = y' &&& dataBits) : mergeBits x y = mergeBits x' y' := by
  rw [mergeBits, mergeBits, hx, hy]

theorem mergeBits_xor (x x' y y' : BitVec 32) :
    mergeBits (x ^^^ x') (y ^^^ y') = mergeBits x y ^^^ mergeBits x' y' := by
  refine (eq_mergeBits (fun k hk => ?_) fun k hk => ?_).symm
  · rw [BitVec.getMsbD_xor, BitVec.getMsbD_xor, (mergeBits_getMsbD _ _ hk).1,
      (mergeBits_getMsbD _ _ hk).1]
  · rw [BitVec.getMsbD_xor, BitVec.getMsbD_xor, (mergeBits_getMsbD _ _ hk).2,
      (mergeBits_getMsbD _ _ hk).2]

theorem mergeBits_zero (y : BitVec 32) : mergeBits 0#32 y = y &&& dataBits := by
  simp [mergeBits]

/-! ## Exclusive ors of longs -/

/-- The exclusive or of some longs. -/
def xorLongs (ls : List (BitVec 32)) : BitVec 32 := ls.foldl (· ^^^ ·) 0#32

theorem foldl_xor (ls : List (BitVec 32)) (a : BitVec 32) :
    ls.foldl (· ^^^ ·) a = a ^^^ xorLongs ls := by
  induction ls generalizing a with
  | nil => simp [xorLongs]
  | cons l ls ih =>
    rw [xorLongs, List.foldl_cons, List.foldl_cons, ih, ih, BitVec.zero_xor, BitVec.xor_assoc]

theorem xorLongs_cons (l : BitVec 32) (ls : List (BitVec 32)) :
    xorLongs (l :: ls) = l ^^^ xorLongs ls := by
  rw [xorLongs, List.foldl_cons, foldl_xor, BitVec.zero_xor]

theorem xorLongs_append (ls ls' : List (BitVec 32)) :
    xorLongs (ls ++ ls') = xorLongs ls ^^^ xorLongs ls' := by
  rw [xorLongs, List.foldl_append, foldl_xor]
  rfl

/-- What distributes over exclusive or may be taken before or after. -/
theorem xorLongs_map {f : BitVec 32 → BitVec 32} (hzero : f 0#32 = 0#32)
    (hxor : ∀ x y, f (x ^^^ y) = f x ^^^ f y) (ls : List (BitVec 32)) :
    xorLongs (ls.map f) = f (xorLongs ls) := by
  induction ls with
  | nil => exact hzero.symm
  | cons l ls ih => rw [List.map_cons, xorLongs_cons, xorLongs_cons, ih, hxor]

theorem xor_and_dataBits (x y : BitVec 32) :
    (x ^^^ y) &&& dataBits = (x &&& dataBits) ^^^ (y &&& dataBits) := by
  apply BitVec.eq_of_getLsbD_eq
  intro i _
  simp only [BitVec.getLsbD_and, BitVec.getLsbD_xor, Bool.and_xor_distrib_right]

theorem xorLongs_map_dataBits (ls : List (BitVec 32)) :
    xorLongs (ls.map (· &&& dataBits)) = xorLongs ls &&& dataBits :=
  xorLongs_map (f := (· &&& dataBits)) BitVec.zero_and xor_and_dataBits ls

theorem xorLongs_map_even (ls : List (BitVec 32)) : xorLongs (ls.map even) = even (xorLongs ls) :=
  xorLongs_map rfl (fun _ _ => BitVec.ushiftRight_xor_distrib ..) ls

theorem amigadosChecksum_eq (m : Mem) (p n : Nat) :
    amigadosChecksum m p n = xorLongs (m.longs p n) := by
  rw [amigadosChecksum, xorLongs, Mem.longs, List.foldl_map]
  rfl

/-! ## A sector in memory -/

/-- Behind its sync long, the sector at `p` has the data bits of these longs. -/
def SectorAt (m : Mem) (p : Nat) (ls : List (BitVec 32)) : Prop :=
  (m.longs (p + 4) 270).map (· &&& dataBits) = ls.map (· &&& dataBits)

namespace SectorAt

variable {m m' : Mem} {p : Nat} {ls : List (BitVec 32)}

theorem congr (h : SectorAt m p ls) (hmem : ∀ a, p + 4 ≤ a → m' a = m a) : SectorAt m' p ls := by
  rw [SectorAt, Mem.longs_congr fun a hlo _ => hmem a hlo]
  exact h

theorem long (h : SectorAt m p ls) {j : Nat} {l : BitVec 32} (hl : ls[j]? = some l) :
    m.long (p + 4 * (j + 1)) &&& dataBits = l &&& dataBits := by
  have hlen : ls.length = 270 := by
    have hlen := congrArg List.length h
    rw [List.length_map, List.length_map, Mem.length_longs] at hlen
    exact hlen.symm
  have hj : j < 270 := hlen ▸ (List.getElem?_eq_some_iff.mp hl).1
  have hget := congrArg (·[j]?) h
  simp only [List.getElem?_map, hl, Option.map_some] at hget
  rw [List.getElem?_eq_getElem (by simpa using hj), Mem.getElem_longs, Option.map_some] at hget
  rw [show p + 4 * (j + 1) = p + 4 + 4 * j by omega]
  exact Option.some.inj hget

theorem getLong (h : SectorAt m p ls) {j : Nat} {l l' : BitVec 32} (hl : ls[j]? = some l)
    (hl' : ls[j + 1]? = some l') :
    getLong m (p + 4 * (j + 1)) = mergeBits l l' := by
  rw [getLong_eq, show p + 4 * (j + 1) + 4 = p + 4 * (j + 1 + 1) by omega]
  exact mergeBits_congr (h.long hl) (h.long hl')

theorem checksum (h : SectorAt m p ls) {a n : Nat} (hn : a + n ≤ 270) :
    amigadosMfmChecksum m (p + 4 * (a + 1)) n = xorLongs ((ls.drop a).take n) &&& dataBits := by
  have hpart : m.longs (p + 4 * (a + 1)) n = ((m.longs (p + 4) 270).drop a).take n := by
    rw [show 270 = a + (n + (270 - a - n)) by omega, Mem.longs_add,
      List.drop_left' (Mem.length_longs _ _ _), Mem.longs_add,
      List.take_left' (Mem.length_longs _ _ _)]
    congr 1
    omega
  rw [amigadosMfmChecksum, amigadosChecksum_eq, hpart, ← xorLongs_map_dataBits,
    ← xorLongs_map_dataBits, List.map_take, List.map_drop, h, ← List.map_drop, ← List.map_take]

end SectorAt

section SectorData

variable {m buf : Mem} {p track nsec sec : Nat}

theorem getLong_info (h : SectorAt m p (sectorData buf track nsec sec)) :
    getLong m (p + 4 * 1) = amigaInfo track nsec sec := by
  rw [h.getLong (j := 0) rfl rfl, mergeBits_even_odd]

/-- The header's checksum holds. -/
theorem header_checksum (h : SectorAt m p (sectorData buf track nsec sec)) :
    amigadosMfmChecksum m (p + 4 * 1) 10 = getLong m (p + 4 * 11) := by
  obtain ⟨info, hinfo⟩ : ∃ info, info = amigaInfo track nsec sec := ⟨_, rfl⟩
  have htake : ((sectorData buf track nsec sec).drop 0).take 10 =
      [even info, odd info, 0, 0, 0, 0, 0, 0, 0, 0] := by
    rw [hinfo]
    rfl
  rw [h.checksum (a := 0) (by decide), htake, h.getLong (j := 10) (l := 0#32) rfl rfl,
    mergeBits_zero, ← hinfo]
  simp [xorLongs, even, odd, BitVec.xor_comm]

/-- The data's checksum holds. -/
theorem data_checksum (h : SectorAt m p (sectorData buf track nsec sec)) :
    amigadosMfmChecksum m (p + 4 * 15) 256 = getLong m (p + 4 * 13) := by
  obtain ⟨ls, hls⟩ : ∃ ls, ls = buf.longs (512 * sec) 128 := ⟨_, rfl⟩
  have htake : ((sectorData buf track nsec sec).drop 14).take 256 =
      ls.map even ++ ls.map odd := by
    rw [hls]
    exact List.take_of_length_le (by simp)
  have hodd : ls.map odd = ls := List.map_id ls
  rw [h.checksum (a := 14) (by decide), htake, h.getLong (j := 12) (l := 0#32) rfl rfl,
    mergeBits_zero, odd, amigadosDatChecksum, amigadosChecksum_eq, ← hls, xorLongs_append,
    xorLongs_map_even, hodd, BitVec.and_assoc, BitVec.and_self, BitVec.xor_comm]
  rfl

end SectorData

/-- Four bytes that are put together by shifts. -/
theorem or_fields (a : Nat) {b c d : Nat} (hb : b < 256) (hc : c < 256) (hd : d < 256) :
    a <<< 24 ||| b <<< 16 ||| c <<< 8 ||| d = a * 16777216 + b * 65536 + c * 256 + d := by
  have hjoin : ∀ x y i, y < 256 → x <<< (8 + i) ||| y <<< i = (x * 256 + y) <<< i := by
    intro x y i hy
    rw [Nat.shiftLeft_add, ← Nat.shiftLeft_or_distrib,
      ← Nat.shiftLeft_add_eq_or_of_lt (show y < 2 ^ 8 from hy), Nat.shiftLeft_eq x 8]
  have hlast := hjoin ((a * 256 + b) * 256 + c) d 0 hd
  rw [Nat.shiftLeft_zero, Nat.shiftLeft_zero] at hlast
  rw [hjoin a b 16 hb, hjoin _ c 8 hc, hlast]
  omega

theorem amigaInfo_toNat {track nsec sec : Nat} (htrack : track ≤ 255) (hsec : sec < nsec)
    (hnsec : nsec ≤ 255) : (amigaInfo track nsec sec).toNat =
      4278190080 + track * 65536 + sec * 256 + (nsec - sec) := by
  have hshift : ∀ x k, x ≤ 255 → k ≤ 24 → (BitVec.ofNat 32 x <<< k).toNat = x <<< k := by
    intro x k hx hk
    have hpow : 2 ^ k ≤ 2 ^ 24 := Nat.pow_le_pow_right (by decide) hk
    have hmul : x * 2 ^ k ≤ 255 * 2 ^ 24 := Nat.mul_le_mul hx hpow
    rw [BitVec.toNat_shiftLeft, BitVec.toNat_ofNat, Nat.mod_eq_of_lt (a := x) (by omega),
      Nat.mod_eq_of_lt (by rw [Nat.shiftLeft_eq]; omega)]
  have hfields := or_fields 255 (b := track) (c := sec) (d := nsec - sec) (by omega) (by omega)
    (by omega)
  rw [amigaInfo, BitVec.toNat_or, BitVec.toNat_or, BitVec.toNat_or,
    show (0xff#32 : BitVec 32) = BitVec.ofNat 32 255 from rfl, hshift _ _ (by omega) (by omega),
    hshift _ _ (by omega) (by omega), hshift _ _ (by omega) (by omega), BitVec.toNat_ofNat,
    Nat.mod_eq_of_lt (a := nsec - sec) (by omega), hfields]

/-- The four fields of the info longword. -/
theorem amigaInfo_fields {track nsec sec : Nat} (htrack : track ≤ 255) (hsec : sec < nsec)
    (hnsec : nsec ≤ 255) :
    ((amigaInfo track nsec sec >>> 24).setWidth 8 : Byte) = 0xff ∧
      ((amigaInfo track nsec sec >>> 16).setWidth 8 : Byte).toNat = track ∧
      ((amigaInfo track nsec sec >>> 8).setWidth 8 : Byte).toNat = sec ∧
      ((amigaInfo track nsec sec).setWidth 8 : Byte).toNat = nsec - sec := by
  have hinfo := amigaInfo_toNat htrack hsec hnsec
  have hbyte : ∀ k b, 2 ^ k = b → ((amigaInfo track nsec sec >>> k).setWidth 8 : Byte).toNat =
      (amigaInfo track nsec sec).toNat / b % 256 := by
    intro k b hb
    rw [BitVec.toNat_setWidth, BitVec.toNat_ushiftRight, Nat.shiftRight_eq_div_pow, hb]
  refine ⟨BitVec.eq_of_toNat_eq ?_, ?_, ?_, ?_⟩
  · rw [hbyte 24 16777216 rfl, hinfo]
    show _ = 255
    omega
  · have hdiv : (amigaInfo track nsec sec).toNat / 65536 = 65280 + track := by omega
    rw [hbyte 16 65536 rfl, hdiv]
    omega
  · have hdiv : (amigaInfo track nsec sec).toNat / 256 = 16711680 + track * 256 + sec := by omega
    rw [hbyte 8 256 rfl, hdiv]
    omega
  · rw [BitVec.toNat_setWidth, hinfo]
    omega

/-! ## Decoding in place -/

/-- The data of a sector, decoded as far as `n` longs. -/
theorem amigaDecode_spec (m : Mem) (p q : Nat) : ∀ n, p + 4 * n ≤ q →
    (∀ j, j < n → (amigaDecode m p q n).long (p + 4 * j) =
      mergeBits (m.long (p + 4 * j)) (m.long (q + 4 * j))) ∧
    ∀ a, a < p ∨ p + 4 * n ≤ a → amigaDecode m p q n a = m a := by
  intro n
  induction n with
  | zero => exact fun _ => ⟨fun j hj => absurd hj (Nat.not_lt_zero j), fun a _ => rfl⟩
  | succ n ih =>
    intro hn
    obtain ⟨hdone, hsame⟩ := ih (by omega)
    obtain ⟨m', hm'⟩ : ∃ m', m' = amigaDecode m p q n := ⟨_, rfl⟩
    have hstep : amigaDecode m p q (n + 1) =
        m'.st32 (p + 4 * n) (mergeBits (m'.ld32 (p + 4 * n)) (m'.ld32 (q + 4 * n))) := by
      rw [hm', amigaDecode, List.range_succ, List.foldl_append]
      rfl
    rw [← hm'] at hdone hsame
    rw [hstep]
    refine ⟨fun j hj => ?_, fun a ha => ?_⟩
    · rcases Nat.lt_or_ge j n with hlt | hge
      · rw [Mem.long_st32_of_ne _ _ (.inl (by omega)), hdone j hlt]
      · -- neither of the two longs has been decoded yet
        have hj : j = n := by omega
        subst hj
        rw [Mem.long, Mem.ld32_st32, be32toh, rev32_mergeBits]
        show mergeBits (m'.long _) (m'.long _) = _
        rw [Mem.long_congr fun a _ _ => hsame a (.inr (by omega)),
          Mem.long_congr (a := q + 4 * j) fun a _ _ => hsame a (.inr (by omega))]
    · rcases ha with ha | ha
      · rw [Mem.st32_of_lt _ _ (by omega), hsame a (.inl ha)]
      · rw [Mem.st32_of_le _ _ (by omega), hsame a (.inr (by omega))]

/-- Bytes are determined by the longs they make. -/
theorem Mem.bytes_eq_of_longs {m m' : Mem} {a a' n : Nat} (h : m.longs a n = m'.longs a' n) :
    m.bytes a (4 * n) = m'.bytes a' (4 * n) := by
  refine blocks_injective length_bitsOf (fun _ _ => bitsOf_injective) (by simp) ?_
  show m.bits a (4 * n) = m'.bits a' (4 * n)
  rw [← Mem.longs_flatMap_bitsOf, h, Mem.longs_flatMap_bitsOf]

/-- The decoded data is what was passed to the writer. -/
theorem amigaDecode_bytes {m buf : Mem} {p track nsec sec : Nat}
    (h : SectorAt m p (sectorData buf track nsec sec)) :
    (amigaDecode m (p + 4 * 15) (p + 4 * 15 + 512) 128).bytes (p + 4 * 15) 512 =
      buf.bytes (512 * sec) 512 := by
  obtain ⟨hdone, -⟩ := amigaDecode_spec m (p + 4 * 15) (p + 4 * 15 + 512) 128 (by omega)
  refine Mem.bytes_eq_of_longs (n := 128) (List.ext_getElem (by simp) fun j hj _ => ?_)
  rw [Mem.length_longs] at hj
  obtain ⟨ls, hls⟩ : ∃ ls, ls = buf.longs (512 * sec) 128 := ⟨_, rfl⟩
  have hlen : ls.length = 128 := by rw [hls, Mem.length_longs]
  have hlong : ls[j]? = some (buf.long (512 * sec + 4 * j)) := by
    rw [hls, List.getElem?_eq_getElem (by simpa using hj), Mem.getElem_longs]
  have hsplit : (sectorData buf track nsec sec).drop 14 = ls.map even ++ ls.map odd := by
    rw [hls]
    rfl
  have heven : (sectorData buf track nsec sec)[14 + j]? =
      some (even (buf.long (512 * sec + 4 * j))) := by
    rw [← List.getElem?_drop, hsplit, List.getElem?_append_left (by simpa [hlen] using hj),
      List.getElem?_map, hlong, Option.map_some]
  have hodd : (sectorData buf track nsec sec)[14 + (128 + j)]? =
      some (odd (buf.long (512 * sec + 4 * j))) := by
    rw [← List.getElem?_drop, hsplit, List.getElem?_append_right (by simp [hlen]), List.length_map,
      hlen, Nat.add_sub_cancel_left, List.getElem?_map, hlong, Option.map_some]
  rw [Mem.getElem_longs, Mem.getElem_longs, hdone j hj,
    show p + 4 * 15 + 4 * j = p + 4 * (14 + j + 1) by omega,
    show p + 4 * 15 + 512 + 4 * j = p + 4 * (14 + (128 + j) + 1) by omega,
    mergeBits_congr (h.long heven) (h.long hodd), mergeBits_even_odd]

/-! ## The loop over the sectors -/

/-- One iteration moves on by a sector, and leaves the memory behind it alone. -/
theorem AmigaRead.sector_frame (s : AmigaRead) (track nsec i : Nat) :
    (s.sector track nsec i).p = s.p + 4 * 272 ∧
      ∀ a, s.p + 4 * 272 ≤ a → (s.sector track nsec i).mem a = s.mem a := by
  refine ⟨?_, fun a ha => ?_⟩
  · show s.p + 4 * 15 + 512 + 512 + 4 * 1 = s.p + 4 * 272
    omega
  · rw [AmigaRead.sector]
    exact (amigaDecode_spec s.mem (s.p + 4 * 15) (s.p + 4 * 15 + 512) (512 / 4) (by omega)).2 a
      (.inr (by omega))

/-- **One iteration**: nothing is reported, and the sector's data goes to its place. -/
theorem AmigaRead.sector_spec {s : AmigaRead} {buf : Mem} {track nsec i : Nat}
    (htrack : track ≤ 255) (hi : i < nsec) (hnsec : nsec ≤ 255)
    (h : SectorAt s.mem s.p (sectorData buf track nsec i)) :
    (s.sector track nsec i).warned = s.warned ∧
      (s.sector track nsec i).buf = s.buf.stBytes (i * 512) (buf.bytes (512 * i) 512) := by
  obtain ⟨hformat, htrk, hsec, htogo⟩ := amigaInfo_fields htrack hi hnsec
  have hinfo := getLong_info h
  refine ⟨?_, ?_⟩
  · rw [AmigaRead.sector]
    simp only [hinfo, hformat, htrk, hsec, htogo, header_checksum h, data_checksum h]
    simp [hi]
  · rw [AmigaRead.sector]
    simp only [hinfo, hsec, amigaDecode_bytes h]

/-- The loop keeps to the sectors it has done. -/
theorem foldl_sector_frame (s : AmigaRead) (track nsec : Nat) : ∀ k, ∃ r,
    (List.range k).foldl (AmigaRead.sector track nsec) s = r ∧ r.p = s.p + 4 * (272 * k) ∧
      ∀ a, s.p + 4 * (272 * k) ≤ a → r.mem a = s.mem a := by
  intro k
  induction k with
  | zero => exact ⟨s, rfl, rfl, fun _ _ => rfl⟩
  | succ k ih =>
    obtain ⟨r, hr, hp, hmem⟩ := ih
    have hend : ∀ a, s.p + 4 * (272 * (k + 1)) ≤ a →
        r.p + 4 * 272 ≤ a ∧ s.p + 4 * (272 * k) ≤ a := by
      intro a ha
      omega
    obtain ⟨hp', hmem'⟩ := r.sector_frame track nsec k
    refine ⟨r.sector track nsec k, ?_, ?_, fun a ha => ?_⟩
    · rw [List.range_succ, List.foldl_append, hr]
      rfl
    · rw [hp', hp]
      omega
    · rw [hmem' a (hend a ha).1, hmem a (hend a ha).2]

/-- **The loop**: after `k` sectors, their data is in the caller's buffer. -/
theorem foldl_sector {m buf : Mem} {p track nsec : Nat} (out : Mem) (warned : Bool)
    (htrack : track ≤ 255) (hnsec : nsec ≤ 255)
    (h : ∀ i, i < nsec → SectorAt m (p + 4 * (272 * i)) (sectorData buf track nsec i)) :
    ∀ k, k ≤ nsec → ∃ r,
      (List.range k).foldl (AmigaRead.sector track nsec) ⟨m, p, out, warned⟩ = r ∧
      r.warned = warned ∧ r.buf.bytes 0 (512 * k) = buf.bytes 0 (512 * k) := by
  intro k
  induction k with
  | zero => exact fun _ => ⟨_, rfl, rfl, rfl⟩
  | succ k ih =>
    intro hk
    obtain ⟨r, hr, hwarned, hbuf⟩ := ih (by omega)
    obtain ⟨r', hr', hp, hmem⟩ := foldl_sector_frame ⟨m, p, out, warned⟩ track nsec k
    obtain rfl : r' = r := hr'.symm.trans hr
    have hat : SectorAt r'.mem r'.p (sectorData buf track nsec k) := by
      rw [hp]
      exact (h k (by omega)).congr fun a ha => hmem a (Nat.le_of_add_right_le ha)
    obtain ⟨hwarned', hbuf'⟩ := AmigaRead.sector_spec htrack (by omega) hnsec hat
    refine ⟨r'.sector track nsec k, ?_, hwarned'.trans hwarned, ?_⟩
    · rw [List.range_succ, List.foldl_append, hr]
      rfl
    · have hlen : (buf.bytes (512 * k) 512).length = 512 := Mem.length_bytes _ _ _
      have hstore := Mem.bytes_stBytes_append r'.buf 0 (512 * k) (buf.bytes (512 * k) 512)
      rw [hlen, hbuf, Nat.zero_add] at hstore
      rw [hbuf', Nat.mul_comm k 512, Nat.mul_succ, hstore, Mem.bytes_add, Nat.zero_add]

end FlashFloppyTestbed
