/-
  Hfe.lean --- `scripts/mk_hfe.py`, which makes the blank HFE images of the tests.

  `mkHfe` gives the bytes of the file, or the exception that the script ends with.
  Python's integers are natural numbers here: the arguments are not negative.  Where
  the opcode bytes of a hard-sectored image go is computed in floating point; `opcodeAt`
  stands for the results, and nothing below depends on them.

  An image is `Consistent` if it has the length it should have and its track list
  points at extents of its own for every track.  The padding of a track side adds
  256 bytes where there is nothing to pad, which the assertion behind it does not
  let pass.
-/
import FlashFloppyTestbed.Foundation.Blocks
import FlashFloppyTestbed.Memory
import Mathlib.Algebra.Group.Nat.Defs
import Mathlib.Tactic.Common

set_option autoImplicit false

namespace FlashFloppyTestbed.Hfe

open FlashFloppyTestbed.Foundation

/-! ## The script -/

/-- How the script can fail. -/
inductive Failure where
  /-- `struct.error`: a value does not fit its field -/
  | struct
  /-- `AssertionError` -/
  | assertion
  deriving DecidableEq

/-- The arguments. -/
structure Args where
  rate : Nat := 250
  rpm : Nat := 300
  cyls : Nat := 80
  sides : Nat := 2
  hardSectors : Nat := 0

namespace Args

variable (args : Args)

/-- `bits`, of both sides. -/
def bits : Nat := args.rate * 1000 * 60 / args.rpm * 2 * 2

/-- `raw_bytes`. -/
def rawBytes : Nat :=
  let bytes := (args.bits + 7) / 8
  if args.hardSectors ≠ 0 then bytes else (bytes + 15) / 16 * 16

/-- `bytes`. -/
def bytes : Nat :=
  if args.hardSectors ≠ 0 then args.rawBytes + (args.hardSectors + 1) * 2 else args.rawBytes

/-- `blocks`. -/
def blocks : Nat := (args.bytes + 511) / 512

/-- `tlut_blocks`. -/
def tlutBlocks : Nat := (args.cyls * 4 + 511) / 512

end Args

/-- `struct.pack` of a `B`. -/
def packB (x : Nat) : Except Failure (List Byte) :=
  if x < 256 then .ok [BitVec.ofNat 8 x] else .error .struct

/-- `struct.pack` of a `<H`. -/
def packH (x : Nat) : Except Failure (List Byte) :=
  if x < 65536 then .ok [BitVec.ofNat 8 x, BitVec.ofNat 8 (x / 256)] else .error .struct

/-- `b'HXCHFEV3'` or `b"HXCPICFE"`. -/
def signature (v3 : Bool) : List Byte :=
  ((if v3 then "HXCHFEV3" else "HXCPICFE").toList).map fun c => BitVec.ofNat 8 c.toNat

/-- The header, up to the padding. -/
def packHeader (args : Args) : Except Failure (List Byte) := do
  let cyls ← packB args.cyls
  let sides ← packB args.sides
  let rate ← packH args.rate
  let rpm ← packH 0
  let offset ← packH 1
  return signature (args.hardSectors ≠ 0) ++ [0] ++ cyls ++ sides ++ [0xff] ++ rate ++ rpm ++
    [0xfe] ++ [1] ++ offset

/-- The loop over the track list, with `k` entries left. -/
def trackList (blocks bytes : Nat) : Nat → Nat → Except Failure (List Byte)
  | 0, _ => .ok []
  | k + 1, base => do
    let b ← packH base
    let n ← packH bytes
    let rest ← trackList blocks bytes k (base + blocks)
    return b ++ n ++ rest

/-- `l.insert(i, x)`: a negative index counts from the end, and one that is out of range is
taken to be the nearest that is not. -/
def pyInsert (l : List Byte) (i : Int) (x : Byte) : List Byte :=
  let k := (if i < 0 then i + l.length else i).toNat
  l.take k ++ x :: l.drop k

/-- `trk_side` with its opcode bytes: `opcodeAt none` is `-int(sector_len)//2`, and
`opcodeAt (some sector)` is `int(sector_len*sector)`. -/
def opcodes (args : Args) (opcodeAt : Option Nat → Int) : List Byte :=
  let trkSide := pyInsert (List.replicate (args.rawBytes / 2) 0x88) (opcodeAt none) 0x8f
  (List.range args.hardSectors).reverse.foldl
    (fun trkSide sector => pyInsert trkSide (opcodeAt (some sector)) 0x8f) trkSide

/-- `trk_side += b'\x0F'*(256 - len(trk_side)%256)`. -/
def padSide (trkSide : List Byte) : List Byte :=
  trkSide ++ List.replicate (256 - trkSide.length % 256) 0x0f

/-- `trk`: the side twice, in turns of 256 bytes. -/
def interleave (trkSide : List Byte) : List Byte :=
  (List.range ((trkSide.length + 255) / 256)).flatMap fun i =>
    (trkSide.drop (256 * i)).take 256 ++ (trkSide.drop (256 * i)).take 256

/-- The data of all tracks. -/
def trackData (args : Args) (opcodeAt : Option Nat → Int) : Except Failure (List Byte) :=
  if args.hardSectors = 0 then .ok (List.replicate (args.blocks * 512 * args.cyls) 0x88)
  else
    let trkSide := opcodes args opcodeAt
    if trkSide.length ≠ args.bytes / 2 then .error .assertion
    else
      let trkSide := padSide trkSide
      if trkSide.length ≠ args.blocks * 256 then .error .assertion
      else .ok (List.replicate args.cyls (interleave trkSide)).flatten

/-- `main`: the file. -/
def mkHfe (args : Args) (opcodeAt : Option Nat → Int) : Except Failure (List Byte) := do
  let header ← packHeader args
  let tlut ← trackList args.blocks args.bytes args.cyls (1 + args.tlutBlocks)
  let data ← trackData args opcodeAt
  return header ++ List.replicate (512 - 20) 0xff ++
    (tlut ++ List.replicate (args.tlutBlocks * 512 - args.cyls * 4) 0xff) ++ data

/-! ## What an image should be -/

/-- The 16-bit number at `offset` of a file. -/
def le16 (file : List Byte) (offset : Nat) : Nat :=
  (file.getD offset 0).toNat + 256 * (file.getD (offset + 1) 0).toNat

/-- Entry `i` of the track list: the first block of the track, and its length in bytes. -/
def trackEntry (file : List Byte) (i : Nat) : Nat × Nat :=
  (le16 file (512 + 4 * i), le16 file (512 + 4 * i + 2))

/-- An image of `cyls` tracks of `blocks` blocks, with `bytes` bytes recorded in each. -/
structure Consistent (cyls blocks bytes : Nat) (file : List Byte) : Prop where
  length : file.length = (1 + (4 * cyls + 511) / 512 + cyls * blocks) * 512
  recorded : ∀ i, i < cyls → (trackEntry file i).2 = bytes
  room : bytes ≤ blocks * 512
  behind : ∀ i, i < cyls → 1 + (4 * cyls + 511) / 512 ≤ (trackEntry file i).1
  inside : ∀ i, i < cyls → ((trackEntry file i).1 + blocks) * 512 ≤ file.length
  disjoint : ∀ i j, i < j → j < cyls → (trackEntry file i).1 + blocks ≤ (trackEntry file j).1

/-- The values fit the fields that they are packed into. -/
structure Packs (args : Args) : Prop where
  cyls : args.cyls < 256
  sides : args.sides < 256
  rate : args.rate < 65536
  bytes : args.bytes < 65536
  base : ∀ i, i < args.cyls → 1 + args.tlutBlocks + i * args.blocks < 65536

/-! ## The track sides -/

theorem length_pyInsert (l : List Byte) (i : Int) (x : Byte) :
    (pyInsert l i x).length = l.length + 1 := by
  rw [pyInsert]
  simp only [List.length_append, List.length_cons, List.length_take, List.length_drop]
  omega

/-- Wherever the opcode bytes go, each makes the side longer by one. -/
theorem length_opcodes (args : Args) (opcodeAt : Option Nat → Int) :
    (opcodes args opcodeAt).length = args.rawBytes / 2 + (args.hardSectors + 1) := by
  have hfold : ∀ (sectors : List Nat) (trkSide : List Byte),
      (sectors.foldl (fun trkSide sector => pyInsert trkSide (opcodeAt (some sector)) 0x8f)
        trkSide).length = trkSide.length + sectors.length := by
    intro sectors
    induction sectors with
    | nil => exact fun _ => rfl
    | cons sector sectors ih =>
      intro trkSide
      rw [List.foldl_cons, ih, length_pyInsert, List.length_cons]
      omega
  rw [opcodes, hfold, length_pyInsert, List.length_replicate, List.length_reverse,
    List.length_range]
  omega

/-- The first assertion never fails. -/
theorem length_opcodes_eq {args : Args} (hhard : args.hardSectors ≠ 0)
    (opcodeAt : Option Nat → Int) : (opcodes args opcodeAt).length = args.bytes / 2 := by
  rw [length_opcodes, Args.bytes, if_pos hhard]
  omega

theorem length_padSide (trkSide : List Byte) :
    (padSide trkSide).length = (trkSide.length / 256 + 1) * 256 := by
  rw [padSide, List.length_append, List.length_replicate]
  omega

/-- The second assertion fails if the bytes fill the blocks. -/
theorem length_padSide_eq_iff {args : Args} (hhard : args.hardSectors ≠ 0)
    (opcodeAt : Option Nat → Int) :
    (padSide (opcodes args opcodeAt)).length = args.blocks * 256 ↔ args.bytes % 512 ≠ 0 := by
  rw [length_padSide, length_opcodes_eq hhard, Args.blocks]
  omega

theorem length_interleave {trkSide : List Byte} {n : Nat} (hlen : trkSide.length = n * 256) :
    (interleave trkSide).length = n * 512 := by
  have hblock : ∀ k, k ≤ n → ((List.range k).flatMap fun i =>
      (trkSide.drop (256 * i)).take 256 ++ (trkSide.drop (256 * i)).take 256).length =
        k * 512 := by
    intro k hk
    induction k with
    | zero => rfl
    | succ k ih =>
      rw [List.range_succ, List.flatMap_append, List.length_append, ih (by omega),
        List.flatMap_singleton, List.length_append, List.length_take, List.length_drop, hlen]
      omega
  rw [interleave, hlen, show (n * 256 + 255) / 256 = n by omega]
  exact hblock n (Nat.le_refl n)

/-- The script gets past the data exactly if the padding comes out right. -/
theorem trackData_eq {args : Args} (hok : args.hardSectors = 0 ∨ args.bytes % 512 ≠ 0)
    (opcodeAt : Option Nat → Int) :
    ∃ data, trackData args opcodeAt = .ok data ∧
      data.length = args.cyls * args.blocks * 512 := by
  by_cases hhard : args.hardSectors = 0
  · refine ⟨_, by rw [trackData, if_pos hhard], ?_⟩
    rw [List.length_replicate, Nat.mul_comm, Nat.mul_assoc]
  · have hside := length_opcodes_eq hhard opcodeAt
    have hpad := (length_padSide_eq_iff hhard opcodeAt).mpr (hok.resolve_left hhard)
    refine ⟨_, by rw [trackData, if_neg hhard, if_neg (not_not.mpr hside),
      if_neg (not_not.mpr hpad)], ?_⟩
    rw [List.length_flatten, List.map_replicate, length_interleave hpad, List.sum_replicate_nat,
      Nat.mul_assoc]

theorem trackData_error {args : Args} (hhard : args.hardSectors ≠ 0) (hbytes : args.bytes % 512 = 0)
    (opcodeAt : Option Nat → Int) : trackData args opcodeAt = .error .assertion := by
  have hpad := (length_padSide_eq_iff hhard opcodeAt).not.mpr (not_not.mpr hbytes)
  rw [trackData, if_neg hhard, if_neg (not_not.mpr (length_opcodes_eq hhard opcodeAt)),
    if_pos hpad]

/-! ## Header and track list -/

theorem packHeader_eq {args : Args} (h : Packs args) :
    ∃ header, packHeader args = .ok header ∧ header.length = 20 := by
  have hsig : ∀ v3, (signature v3).length = 8 := by decide
  refine ⟨_, by rw [packHeader, packB, packB, packH, packH, packH, if_pos h.cyls, if_pos h.sides,
    if_pos h.rate]; rfl, ?_⟩
  simp [hsig]

/-- An entry of the track list. -/
def entryBytes (base bytes : Nat) : List Byte :=
  [BitVec.ofNat 8 base, BitVec.ofNat 8 (base / 256), BitVec.ofNat 8 bytes,
    BitVec.ofNat 8 (bytes / 256)]

theorem trackList_eq {blocks bytes k base : Nat} (hbytes : bytes < 65536)
    (hbase : ∀ i, i < k → base + i * blocks < 65536) :
    trackList blocks bytes k base =
      .ok ((List.range k).flatMap fun i => entryBytes (base + i * blocks) bytes) := by
  induction k generalizing base with
  | zero => rfl
  | succ k ih =>
    have hfirst := hbase 0 k.succ_pos
    rw [Nat.zero_mul, Nat.add_zero] at hfirst
    have hnext : ∀ i, base + blocks + i * blocks = base + (i + 1) * blocks := by
      intro i
      rw [Nat.succ_mul]
      omega
    rw [trackList, packH, packH, if_pos hfirst, if_pos hbytes, ih fun i hi => ?_]
    · rw [List.range_succ_eq_map, List.flatMap_cons, List.flatMap_map]
      simp only [hnext]
      rw [Nat.zero_mul, Nat.add_zero]
      rfl
    · rw [hnext]
      exact hbase (i + 1) (by omega)

theorem le16_of_bytes {file : List Byte} {offset x : Nat} (hx : x < 65536)
    (hlo : file[offset]? = some (BitVec.ofNat 8 x))
    (hhi : file[offset + 1]? = some (BitVec.ofNat 8 (x / 256))) : le16 file offset = x := by
  rw [le16, List.getD_eq_getElem?_getD, List.getD_eq_getElem?_getD, hlo, hhi, Option.getD_some,
    Option.getD_some, BitVec.toNat_ofNat, BitVec.toNat_ofNat]
  omega

/-- What the track list says of track `i`. -/
theorem trackEntry_eq {front back : List Byte} {base blocks bytes k i : Nat}
    (hfront : front.length = 512) (hi : i < k) (hbytes : bytes < 65536)
    (hbase : base + i * blocks < 65536) :
    trackEntry (front ++ ((List.range k).flatMap fun i => entryBytes (base + i * blocks) bytes) ++
      back) i = (base + i * blocks, bytes) := by
  have hat : ∀ j, j < 4 → (front ++ ((List.range k).flatMap fun i =>
      entryBytes (base + i * blocks) bytes) ++ back)[512 + 4 * i + j]? =
        (entryBytes (base + i * blocks) bytes)[j]? := by
    intro j hj
    have hblock : ∀ i, (entryBytes (base + i * blocks) bytes).length = 4 := fun _ => rfl
    have hentry := getElem?_blocks hblock (l := List.range k)
      (show i < (List.range k).length by rwa [List.length_range]) hj
    rw [List.getElem_range] at hentry
    rw [List.getElem?_append_left, List.getElem?_append_right (by omega), hfront,
      show 512 + 4 * i + j - 512 = 4 * i + j by omega, hentry]
    rw [List.length_append, hfront, length_blocks hblock, List.length_range]
    omega
  have hfirst := le16_of_bytes hbase (hat 0 (by decide)) (hat 1 (by decide))
  have hlength := le16_of_bytes hbytes (hat 2 (by decide)) (hat 3 (by decide))
  rw [trackEntry, hlength]
  exact congrArg (·, bytes) hfirst

/-! ## The image -/

section Image

/-- Extents of `blocks` blocks, one behind the other, are what an image should have. -/
theorem consistent_of_entries {cyls blocks bytes : Nat} {file : List Byte}
    (hlen : file.length = (1 + (4 * cyls + 511) / 512 + cyls * blocks) * 512)
    (hroom : bytes ≤ blocks * 512)
    (hentry : ∀ i, i < cyls →
      trackEntry file i = (1 + (4 * cyls + 511) / 512 + i * blocks, bytes)) :
    Consistent cyls blocks bytes file := by
  have hnext : ∀ i j, i < j → i * blocks + blocks ≤ j * blocks := by
    intro i j hij
    rw [← Nat.succ_mul]
    exact Nat.mul_le_mul_right _ hij
  refine ⟨hlen, fun i hi => ?_, hroom, fun i hi => ?_, fun i hi => ?_, fun i j hij hj => ?_⟩
  · rw [hentry i hi]
  · rw [hentry i hi]
    exact Nat.le_add_right _ _
  · rw [hentry i hi, hlen]
    have hend := hnext i cyls hi
    exact Nat.mul_le_mul_right _ (by omega)
  · rw [hentry i (Nat.lt_trans hij hj), hentry j hj]
    have hend := hnext i j hij
    show 1 + (4 * cyls + 511) / 512 + i * blocks + blocks ≤
      1 + (4 * cyls + 511) / 512 + j * blocks
    omega

variable {args : Args}

/-- With the data written, the image is as it should be. -/
theorem mkHfe_of_data (h : Packs args) {opcodeAt : Option Nat → Int} {data : List Byte}
    (hdata : trackData args opcodeAt = .ok data)
    (hlen : data.length = args.cyls * args.blocks * 512) :
    ∃ file, mkHfe args opcodeAt = .ok file ∧
      Consistent args.cyls args.blocks args.bytes file := by
  obtain ⟨header, hheader, hheaderLen⟩ := packHeader_eq h
  obtain ⟨tlut, htlut⟩ : ∃ tlut, tlut = (List.range args.cyls).flatMap fun i =>
      entryBytes (1 + args.tlutBlocks + i * args.blocks) args.bytes := ⟨_, rfl⟩
  have hlist : trackList args.blocks args.bytes args.cyls (1 + args.tlutBlocks) = .ok tlut := by
    rw [htlut, trackList_eq h.bytes h.base]
  have htlutLen : tlut.length = 4 * args.cyls := by
    have hblock : ∀ i, (entryBytes (1 + args.tlutBlocks + i * args.blocks) args.bytes).length = 4 :=
      fun _ => rfl
    rw [htlut, length_blocks hblock, List.length_range]
  have hceil : args.tlutBlocks = (4 * args.cyls + 511) / 512 := by
    rw [Args.tlutBlocks, Nat.mul_comm]
  obtain ⟨file, hfile⟩ : ∃ file, file = header ++ List.replicate (512 - 20) 0xff ++
      (tlut ++ List.replicate (args.tlutBlocks * 512 - args.cyls * 4) 0xff) ++ data := ⟨_, rfl⟩
  refine ⟨file, by rw [mkHfe, hheader, hlist, hdata, hfile]; rfl,
    consistent_of_entries ?_ ?_ fun i hi => ?_⟩
  · rw [hfile]
    simp only [List.length_append, List.length_replicate, hheaderLen, htlutLen, hlen, hceil]
    generalize args.cyls * args.blocks = data
    omega
  · rw [Args.blocks]
    omega
  · rw [hfile, htlut, ← List.append_assoc, List.append_assoc _ _ data, ← hceil]
    refine trackEntry_eq ?_ hi h.bytes (h.base i hi)
    rw [List.length_append, hheaderLen, List.length_replicate]

/-- Without it, there is none. -/
theorem mkHfe_of_error (h : Packs args) {opcodeAt : Option Nat → Int}
    (hdata : trackData args opcodeAt = .error .assertion) :
    mkHfe args opcodeAt = .error .assertion := by
  obtain ⟨header, hheader, -⟩ := packHeader_eq h
  rw [mkHfe, hheader, trackList_eq h.bytes h.base, hdata]
  rfl

/-- The bytes of a track of a hard-sectored image, by the arguments. -/
theorem bytes_eq (hhard : args.hardSectors ≠ 0) : args.bytes =
    (args.rate * 60000 / args.rpm * 4 + 7) / 8 + 2 * (args.hardSectors + 1) := by
  have hmega : args.rate * 1000 * 60 = args.rate * 60000 := Nat.mul_assoc _ _ _
  rw [Args.bytes, if_pos hhard, Args.rawBytes, if_pos hhard, Args.bits, hmega]
  omega

/-- The script makes a consistent image exactly if it is for a disk without hard sectors, or
the bytes of a track do not fill its blocks. -/
theorem mkHfe_consistent_iff (_hrpm : 0 < args.rpm) (h : Packs args)
    (opcodeAt : Option Nat → Int) :
    (∃ file, mkHfe args opcodeAt = .ok file ∧
      Consistent args.cyls args.blocks args.bytes file) ↔
    args.hardSectors = 0 ∨
      ((args.rate * 60000 / args.rpm * 4 + 7) / 8 + 2 * (args.hardSectors + 1)) % 512 ≠ 0 := by
  constructor
  · rintro ⟨file, hfile, -⟩
    by_contra hfull
    push Not at hfull
    obtain ⟨hhard, hbytes⟩ := hfull
    rw [← bytes_eq hhard] at hbytes
    rw [mkHfe_of_error h (trackData_error hhard hbytes opcodeAt)] at hfile
    cases hfile
  · intro hok
    have hbytes : args.hardSectors = 0 ∨ args.bytes % 512 ≠ 0 := by
      by_cases hhard : args.hardSectors = 0
      · exact .inl hhard
      · rw [bytes_eq hhard]
        exact hok
    obtain ⟨data, hdata, hlen⟩ := trackData_eq hbytes opcodeAt
    exact mkHfe_of_data h hdata hlen

end Image

/-- The image `dd_10sect.hfe` of the `Makefile`. -/
def tenSectors : Args := { hardSectors := 10 }

theorem packs_tenSectors : Packs tenSectors where
  cyls := by decide
  sides := by decide
  rate := by decide
  bytes := by decide
  base := by
    intro i hi
    have hcyls : tenSectors.cyls = 80 := rfl
    have htlut : tenSectors.tlutBlocks = 1 := by decide
    have hblocks : tenSectors.blocks = 49 := by decide
    rw [htlut, hblocks]
    omega

theorem mkHfe_consistent_tenSectors : 0 < tenSectors.rpm ∧ Packs tenSectors ∧
    ∃ file, mkHfe tenSectors (fun _ => 0) = .ok file ∧ Consistent 80 49 25022 file :=
  ⟨by decide, packs_tenSectors,
    (mkHfe_consistent_iff (by decide) packs_tenSectors fun _ => 0).mpr (.inr (by decide))⟩

/-- With 43 sectors a track has 25000 bytes and 88 opcode bytes, which is 49 blocks. -/
def fullTrack : Args := { hardSectors := 43 }

theorem packs_fullTrack : Packs fullTrack where
  cyls := by decide
  sides := by decide
  rate := by decide
  bytes := by decide
  base := by
    intro i hi
    have hcyls : fullTrack.cyls = 80 := rfl
    have htlut : fullTrack.tlutBlocks = 1 := by decide
    have hblocks : fullTrack.blocks = 49 := by decide
    rw [htlut, hblocks]
    omega

/-- The script does not make that image. -/
theorem mkHfe_fullTrack :
    ¬ ∀ args : Args, 0 < args.rate → 0 < args.rpm → 0 < args.cyls → Packs args →
      args.hardSectors = 0 ∨ args.hardSectors ≤ args.rawBytes / 2 → ∀ opcodeAt, ∃ file,
        mkHfe args opcodeAt = .ok file ∧
          Consistent args.cyls args.blocks args.bytes file := by
  intro hclaim
  have herror := mkHfe_of_error packs_fullTrack
    (trackData_error (by decide) (by decide) fun _ => 0)
  obtain ⟨file, hfile, -⟩ := hclaim fullTrack (by decide) (by decide) (by decide) packs_fullTrack
    (.inr (by decide)) fun _ => 0
  rw [herror] at hfile
  cases hfile

end FlashFloppyTestbed.Hfe
