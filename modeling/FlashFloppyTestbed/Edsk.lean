/-
  Edsk.lean --- `scripts/mk_edsk.py`, which makes the CPC DSK image of the tests.

  The script packs a file: a disk header with the size of every track, then for each
  track a block with its sector list and the data.  `edskSectors` reads such a file by
  its own tables, as a drive does.  What it finds in the file of the script is
  `edskTrack` (`edskSectors_mkEdsk`): on track `k`, sectors of `128 << n` bytes that
  are numbered from 3 on, with `n` between 2 and 6.

  The header field is `i&nr_heads`, which is 0 or 2 and seldom the head.
-/
import FlashFloppyTestbed.Disk.Layout
import FlashFloppyTestbed.Hfe

set_option autoImplicit false

namespace FlashFloppyTestbed.Edsk

open FlashFloppyTestbed.Foundation FlashFloppyTestbed.Hfe

/-! ## The script -/

def nrCyls : Nat := 40

def nrHeads : Nat := 2

/-- `struct.pack` of so many `B`. -/
def packBs (xs : List Nat) : Except Failure (List Byte) := (xs.mapM packB).map List.flatten

/-- `struct.pack` of an `s` of `n` bytes. -/
def packS (n : Nat) (s : String) : List Byte :=
  let l := s.toList.map fun c => BitVec.ofNat 8 c.toNat
  (l ++ List.replicate (n - l.length) 0).take n

/-- `c, h, r, n, stat1, stat2, actual_size` of sector `j`. -/
def sectorInfo (i n secSz j : Nat) : Except Failure (List Byte) := do
  let b ← packBs [i / nrHeads, i &&& nrHeads, j + 3, n, 0, 0]
  let h ← packH secSz
  return b ++ h

/-- One iteration of the loop over the sectors. -/
def sectorStep (i n secSz : Nat) (out : List Byte) (j : Nat) : Except Failure (List Byte) := do
  let info ← sectorInfo i n secSz j
  return out ++ info

/-- One iteration of the loop over the tracks. -/
def trackStep (out : List Byte) (i : Nat) : Except Failure (List Byte) := do
  let n := i % 5 + 2
  let secSz := 128 <<< n
  let nrSec := 8192 / secSz
  let info ← packBs [i / nrHeads, i &&& nrHeads, 0, 0, n, nrSec, 84, 0xe5]
  let out := out ++ packS 16 "Track-Info\r\n" ++ info
  let out ← (List.range nrSec).foldlM (sectorStep i n secSz) out
  let out := out ++ List.replicate (256 - out.length % 256) 0
  return out ++ List.replicate 8192 0

/-- One iteration of the loop over the track sizes. -/
def sizeStep (out : List Byte) (_ : Nat) : Except Failure (List Byte) := do
  let sz ← packB ((8192 + 256) / 256)
  return out ++ sz

/-- `main`: the file. -/
def mkEdsk : Except Failure (List Byte) := do
  let dims ← packBs [nrCyls, nrHeads]
  let sz ← packH 0
  let out := packS 48 "EXTENDED CPC DSK File\r\nDisk-Info\r\nFF_Test" ++ (dims ++ sz)
  let out ← (List.range (nrCyls * nrHeads)).foldlM sizeStep out
  let out := out ++ List.replicate (256 - out.length) 0
  (List.range (nrCyls * nrHeads)).foldlM trackStep out

/-! ## What a drive reads -/

/-- The byte at an offset. -/
def at8 (file : List Byte) (o : Nat) : Byte := file.getD o 0

/-- Where the block of track `k` is: the blocks follow each other, and their sizes are in the
disk header. -/
def trackAt (file : List Byte) (k : Nat) : Nat :=
  256 + 256 * ((List.range k).map fun j => (at8 file (0x34 + j)).toNat).sum

/-- Where the data of sector `j` are: they follow each other, and their sizes are in the sector
list. -/
def dataAt (file : List Byte) (k j : Nat) : Nat :=
  trackAt file k + 256 +
    ((List.range j).map fun j' => le16 file (trackAt file k + 24 + 8 * j' + 6)).sum

/-- The sectors of track `k`. -/
def edskSectors (file : List Byte) (k : Nat) : List Sector :=
  (List.range (at8 file (trackAt file k + 21)).toNat).map fun j =>
    let e := trackAt file k + 24 + 8 * j
    ⟨⟨at8 file e, at8 file (e + 1), at8 file (e + 2), at8 file (e + 3)⟩,
      (file.drop (dataAt file k j)).take (le16 file (e + 6))⟩

/-- What the script puts on track `k`. -/
def edskTrack (k : Nat) : List Sector :=
  let n := k % 5 + 2
  (List.range (8192 / (128 <<< n))).map fun j =>
    ⟨⟨BitVec.ofNat 8 (k / nrHeads), BitVec.ofNat 8 (k &&& nrHeads), BitVec.ofNat 8 (j + 3),
      BitVec.ofNat 8 n⟩, List.replicate (128 <<< n) 0⟩

/-! ## The file -/

theorem packBs_ok : ∀ {xs : List Nat}, (∀ x ∈ xs, x < 256) →
    packBs xs = .ok (xs.map (BitVec.ofNat 8)) := by
  intro xs
  induction xs with
  | nil => exact fun _ => rfl
  | cons x xs ih =>
    intro h
    have hrest := ih fun y hy => h y (List.mem_cons_of_mem _ hy)
    rw [packBs] at hrest
    obtain ⟨ls, hls, hflat⟩ : ∃ ls, xs.mapM packB = .ok ls ∧
        ls.flatten = xs.map (BitVec.ofNat 8) := by
      cases hmap : xs.mapM packB with
      | error e => rw [hmap] at hrest; nomatch hrest
      | ok ls => rw [hmap] at hrest; exact ⟨ls, rfl, Except.ok.inj hrest⟩
    rw [packBs, List.mapM_cons, packB, if_pos (h x List.mem_cons_self), hls, List.map_cons, ← hflat]
    rfl

theorem ok_bind {α β : Type} (a : α) (f : α → Except Failure β) :
    (Except.ok a >>= f) = f a := by
  simp only [bind, Except.bind]

/-- A loop that appends to what there is, as long as `P` holds of it. -/
theorem foldlM_append {f : List Byte → Nat → Except Failure (List Byte)} {g : Nat → List Byte}
    (P : List Byte → Prop) : ∀ {l : List Nat} {out : List Byte}, P out →
    (∀ i ∈ l, ∀ out, P out → f out i = .ok (out ++ g i) ∧ P (out ++ g i)) →
      l.foldlM f out = .ok (out ++ l.flatMap g) := by
  intro l
  induction l with
  | nil => exact fun _ _ => by rw [List.foldlM_nil, List.flatMap_nil, List.append_nil]; rfl
  | cons i l ih =>
    intro out hP h
    obtain ⟨hf, hP'⟩ := h i List.mem_cons_self out hP
    rw [List.foldlM_cons, hf, List.flatMap_cons, ← List.append_assoc]
    exact ih hP' fun i hi => h i (List.mem_cons_of_mem _ hi)

/-- The entry of a sector in the list of its track. -/
def infoBytes (i n secSz j : Nat) : List Byte :=
  [i / nrHeads, i &&& nrHeads, j + 3, n, 0, 0, secSz, secSz / 256].map (BitVec.ofNat 8)

/-- The sectors of a track fill 8192 bytes, and there are 16 of them at most. -/
theorem sizes (i : Nat) {secSz nrSec : Nat} (hsz : secSz = 128 <<< (i % 5 + 2))
    (hnr : nrSec = 8192 / secSz) : nrSec ≤ 16 ∧ secSz * nrSec = 8192 ∧ secSz ≤ 8192 := by
  have hall : ∀ r < 5, 8192 / (128 <<< (r + 2)) ≤ 16 ∧
      (128 <<< (r + 2)) * (8192 / (128 <<< (r + 2))) = 8192 ∧ 128 <<< (r + 2) ≤ 8192 := by decide
  subst hsz hnr
  exact hall _ (Nat.mod_lt _ (by decide))

/-- The part of a block in front of the data. -/
def trackHead (i : Nat) : List Byte :=
  let n := i % 5 + 2
  let secSz := 128 <<< n
  let nrSec := 8192 / secSz
  packS 16 "Track-Info\r\n" ++
    [i / nrHeads, i &&& nrHeads, 0, 0, n, nrSec, 84, 0xe5].map (BitVec.ofNat 8) ++
    (List.range nrSec).flatMap (infoBytes i n secSz)

/-- The block of a track. -/
def trackBlock (i : Nat) : List Byte :=
  trackHead i ++ List.replicate (256 - (24 + 8 * (8192 / (128 <<< (i % 5 + 2))))) 0 ++
    List.replicate 8192 0

theorem length_packS (n : Nat) (s : String) : (packS n s).length = n := by
  rw [packS, List.length_take, List.length_append, List.length_replicate]
  omega

theorem length_trackHead (i : Nat) :
    (trackHead i).length = 24 + 8 * (8192 / (128 <<< (i % 5 + 2))) := by
  rw [trackHead, List.length_append, List.length_append,
    length_blocks (c := 8) (fun _ => rfl), List.length_range, length_packS]
  rfl

theorem length_trackBlock (i : Nat) : (trackBlock i).length = 8448 := by
  have hsizes := sizes i rfl rfl
  rw [trackBlock, List.length_append, List.length_append, length_trackHead, List.length_replicate,
    List.length_replicate]
  omega

/-- One iteration adds a block behind whole blocks. -/
theorem trackStep_eq {out : List Byte} (hout : out.length % 256 = 0) {i : Nat} (hi : i < 80) :
    trackStep out i = .ok (out ++ trackBlock i) := by
  obtain ⟨n, hn⟩ : ∃ n, n = i % 5 + 2 := ⟨_, rfl⟩
  obtain ⟨secSz, hsz⟩ : ∃ secSz, secSz = 128 <<< n := ⟨_, rfl⟩
  obtain ⟨nrSec, hnr⟩ : ∃ nrSec, nrSec = 8192 / secSz := ⟨_, rfl⟩
  obtain ⟨hsixteen, -, hlarge⟩ := sizes i (hn ▸ hsz) hnr
  have hhead : i &&& nrHeads ≤ 2 := Nat.and_le_right
  have hcyl : i / nrHeads < 40 := by
    rw [nrHeads]
    omega
  have hinfo : packBs [i / nrHeads, i &&& nrHeads, 0, 0, n, nrSec, 84, 0xe5] =
      .ok ([i / nrHeads, i &&& nrHeads, 0, 0, n, nrSec, 84, 0xe5].map (BitVec.ofNat 8)) := by
    refine packBs_ok ?_
    simp only [List.forall_mem_cons, List.not_mem_nil, false_imp_iff, implies_true, and_true]
    omega
  have hsector : ∀ j ∈ List.range nrSec, ∀ out : List Byte, True →
      sectorStep i n secSz out j = .ok (out ++ infoBytes i n secSz j) ∧ True := by
    intro j hj out _
    rw [List.mem_range] at hj
    have hbytes : packBs [i / nrHeads, i &&& nrHeads, j + 3, n, 0, 0] =
        .ok ([i / nrHeads, i &&& nrHeads, j + 3, n, 0, 0].map (BitVec.ofNat 8)) := by
      refine packBs_ok ?_
      simp only [List.forall_mem_cons, List.not_mem_nil, false_imp_iff, implies_true, and_true]
      omega
    rw [sectorStep, sectorInfo, hbytes, packH, if_pos (by omega)]
    exact ⟨rfl, trivial⟩
  have hloop := @foldlM_append _ (infoBytes i n secSz) (fun _ => True) _
    (out ++ packS 16 "Track-Info\r\n" ++
      [i / nrHeads, i &&& nrHeads, 0, 0, n, nrSec, 84, 0xe5].map (BitVec.ofNat 8)) trivial hsector
  have hwhole : out ++ packS 16 "Track-Info\r\n" ++
      [i / nrHeads, i &&& nrHeads, 0, 0, n, nrSec, 84, 0xe5].map (BitVec.ofNat 8) ++
        (List.range nrSec).flatMap (infoBytes i n secSz) = out ++ trackHead i := by
    rw [trackHead]
    simp only [← hn, ← hsz, ← hnr, List.append_assoc]
  rw [hwhole] at hloop
  have hpad : 256 - (out ++ trackHead i).length % 256 = 256 - (24 + 8 * nrSec) := by
    rw [List.length_append, length_trackHead, ← hn, ← hsz, ← hnr]
    omega
  rw [trackStep]
  simp only [← hn, ← hsz, ← hnr, hinfo, ok_bind, hloop, hpad, trackBlock]
  rw [← List.append_assoc, ← List.append_assoc]
  rfl

/-- The disk header. -/
def diskHead : List Byte :=
  packS 48 "EXTENDED CPC DSK File\r\nDisk-Info\r\nFF_Test" ++ [40, 2, 0, 0] ++
    List.replicate 80 33 ++ List.replicate 124 0

theorem length_diskHead : diskHead.length = 256 := by
  rw [diskHead, List.length_append, List.length_append, List.length_append, List.length_replicate,
    List.length_replicate, length_packS]
  rfl

/-- **The file**: the header, and the blocks of the 80 tracks. -/
theorem mkEdsk_eq : mkEdsk = .ok (diskHead ++ (List.range 80).flatMap trackBlock) := by
  obtain ⟨front, hfront⟩ : ∃ front,
      front = packS 48 "EXTENDED CPC DSK File\r\nDisk-Info\r\nFF_Test" ++ [40, 2, 0, 0] :=
    ⟨_, rfl⟩
  have hlen : front.length = 52 := by
    rw [hfront, List.length_append, length_packS]
    rfl
  have hdims : packBs [nrCyls, nrHeads] = .ok [40, 2] := rfl
  have hnone : packH 0 = .ok [0, 0] := rfl
  have hcount : nrCyls * nrHeads = 80 := rfl
  have hsizes := @foldlM_append sizeStep (fun _ => [33]) (fun _ => True) (List.range 80) front
    trivial fun _ _ _ _ => ⟨rfl, trivial⟩
  have htable : (List.range 80).flatMap (fun _ => [(33 : Byte)]) = List.replicate 80 33 := by
    decide
  rw [htable] at hsizes
  have hhead : front ++ List.replicate 80 33 ++
      List.replicate (256 - (front ++ List.replicate 80 33).length) 0 = diskHead := by
    rw [diskHead, ← hfront, List.length_append, hlen, List.length_replicate]
  have htracks := @foldlM_append trackStep trackBlock (fun out => out.length % 256 = 0)
    (List.range 80) diskHead (by rw [length_diskHead]) fun i hi out hout =>
      ⟨trackStep_eq hout (List.mem_range.mp hi), by
        rw [List.length_append, length_trackBlock]
        omega⟩
  rw [mkEdsk, hdims, hnone]
  simp only [ok_bind, hcount, List.cons_append, List.nil_append, ← hfront, hsizes, hhead, htracks]

/-! ## Reading it -/

section Reading

variable {file : List Byte} (hfile : file = diskHead ++ (List.range 80).flatMap trackBlock)

include hfile

theorem trackAt_eq {k : Nat} (hk : k ≤ 80) : trackAt file k = 256 + 8448 * k := by
  have hentry : ∀ j ∈ List.range k, (at8 file (0x34 + j)).toNat = 33 := by
    intro j hj
    rw [List.mem_range] at hj
    have hall : ∀ j < 80, diskHead.getD (0x34 + j) 0 = 33 := by decide
    rw [at8, hfile, List.getD_append _ _ _ _ (by rw [length_diskHead]; omega), hall j (by omega)]
    rfl
  rw [trackAt, List.map_congr_left hentry, List.map_const', List.sum_replicate_nat,
    List.length_range]
  omega

/-- A byte of a block. -/
theorem getElem?_block {k : Nat} (hk : k < 80) {x : Nat} (hx : x < 8448) :
    file[256 + 8448 * k + x]? = (trackBlock k)[x]? := by
  have hblock := getElem?_blocks length_trackBlock (l := List.range 80)
    (show k < (List.range 80).length by rwa [List.length_range]) hx
  rw [List.getElem_range] at hblock
  have hbehind : 256 + 8448 * k + x - 256 = 8448 * k + x := by omega
  rw [hfile, List.getElem?_append_right (by rw [length_diskHead]; omega), length_diskHead, hbehind,
    hblock]

theorem getElem?_head {k : Nat} (hk : k < 80) {x : Nat} (hx : x < (trackHead k).length) :
    file[256 + 8448 * k + x]? = (trackHead k)[x]? := by
  have hsizes := sizes k rfl rfl
  have hlen := length_trackHead k
  rw [getElem?_block hfile hk (by omega), trackBlock, List.append_assoc,
    List.getElem?_append_left hx]

/-- A byte of the sector list. -/
theorem getElem?_info {k : Nat} (hk : k < 80) {n secSz nrSec : Nat} (hn : n = k % 5 + 2)
    (hsz : secSz = 128 <<< n) (hnr : nrSec = 8192 / secSz) {j y : Nat} (hj : j < nrSec)
    (hy : y < 8) :
    file[256 + 8448 * k + 24 + 8 * j + y]? = (infoBytes k n secSz j)[y]? := by
  subst hn hsz hnr
  have hlen := length_trackHead k
  have hinfo := getElem?_blocks (f := infoBytes k (k % 5 + 2) (128 <<< (k % 5 + 2)))
    (fun _ => rfl) (l := List.range (8192 / (128 <<< (k % 5 + 2))))
    (show j < (List.range _).length by rwa [List.length_range]) hy
  rw [List.getElem_range] at hinfo
  rw [show 256 + 8448 * k + 24 + 8 * j + y = 256 + 8448 * k + (24 + (8 * j + y)) by omega,
    getElem?_head hfile hk (by omega), trackHead,
    List.getElem?_append_right (show 24 ≤ 24 + (8 * j + y) by omega), ← hinfo]
  congr 1
  exact Nat.add_sub_cancel_left 24 _

/-- **What is read from the file** is what the script put there. -/
theorem edskSectors_eq {k : Nat} (hk : k < 80) : edskSectors file k = edskTrack k := by
  obtain ⟨n, hn⟩ : ∃ n, n = k % 5 + 2 := ⟨_, rfl⟩
  obtain ⟨secSz, hsz⟩ : ∃ secSz, secSz = 128 <<< n := ⟨_, rfl⟩
  obtain ⟨nrSec, hnr⟩ : ∃ nrSec, nrSec = 8192 / secSz := ⟨_, rfl⟩
  obtain ⟨hsixteen, hwhole, hlarge⟩ := sizes k (hn ▸ hsz) hnr
  have hinfo : ∀ {j y : Nat}, j < nrSec → y < 8 →
      file[256 + 8448 * k + 24 + 8 * j + y]? = (infoBytes k n secSz j)[y]? :=
    fun hj hy => getElem?_info hfile hk hn hsz hnr hj hy
  have hcount : (at8 file (256 + 8448 * k + 21)).toNat = nrSec := by
    have hlen := length_trackHead k
    have hbyte : (trackHead k)[21]? = some (BitVec.ofNat 8 nrSec) := by
      rw [hnr, hsz, hn]
      rfl
    rw [at8, List.getD_eq_getElem?_getD, getElem?_head hfile hk (by omega), hbyte,
      Option.getD_some, BitVec.toNat_ofNat]
    omega
  have hsize : ∀ j < nrSec, le16 file (256 + 8448 * k + 24 + 8 * j + 6) = secSz := fun j hj =>
    le16_of_bytes (by omega) (hinfo hj (by decide)) (hinfo hj (show 7 < 8 by decide))
  have hdata : ∀ j < nrSec, dataAt file k j = 256 + 8448 * k + (256 + j * secSz) := by
    intro j hj
    have heach : ∀ j' ∈ List.range j, le16 file (256 + 8448 * k + 24 + 8 * j' + 6) = secSz :=
      fun j' hj' => hsize j' (Nat.lt_trans (List.mem_range.mp hj') hj)
    rw [dataAt, trackAt_eq hfile hk.le, List.map_congr_left heach, List.map_const',
      List.sum_replicate_nat, List.length_range, Nat.add_assoc]
  rw [edskSectors, edskTrack, trackAt_eq hfile hk.le, hcount, ← hn, ← hsz, ← hnr]
  refine List.map_congr_left fun j hj => ?_
  rw [List.mem_range] at hj
  have hbyte : ∀ {y : Nat} {b : Byte}, y < 8 → (infoBytes k n secSz j)[y]? = some b →
      at8 file (256 + 8448 * k + 24 + 8 * j + y) = b := by
    intro y b hy hb
    rw [at8, List.getD_eq_getElem?_getD, hinfo hj hy, hb, Option.getD_some]
  have hend : j * secSz + secSz ≤ 8192 := by
    rw [← hwhole, ← Nat.succ_mul, Nat.mul_comm secSz]
    exact Nat.mul_le_mul_right secSz hj
  have hzero : (file.drop (dataAt file k j)).take secSz = List.replicate secSz 0 := by
    refine List.ext_getElem? fun y => ?_
    rw [List.getElem?_take, List.getElem?_replicate]
    split
    · next hy =>
      have hlen := length_trackHead k
      rw [List.getElem?_drop, hdata j hj, Nat.add_assoc,
        getElem?_block hfile hk (show 256 + j * secSz + y < 8448 by omega), trackBlock,
        List.getElem?_append_right, List.getElem?_replicate, if_pos]
      · rw [List.length_append, hlen, List.length_replicate, ← hn, ← hsz, ← hnr]
        omega
      · rw [List.length_append, hlen, List.length_replicate, ← hn, ← hsz, ← hnr]
        omega
    · rfl
  dsimp only
  rw [hsize j hj, hzero, hbyte (y := 1) (by decide) rfl, hbyte (y := 2) (by decide) rfl,
    hbyte (y := 3) (by decide) rfl]
  exact congrArg (fun c => (⟨⟨c, _, _, _⟩, _⟩ : Sector)) (hbyte (y := 0) (by decide) rfl)

end Reading

/-- **The image of the tests**, read as a drive reads it, has on each of its 80 tracks the
sectors that the script put there. -/
theorem edskSectors_mkEdsk : ∃ file, mkEdsk = .ok file ∧
    ∀ k < 80, edskSectors file k = edskTrack k :=
  ⟨_, mkEdsk_eq, fun _ hk => edskSectors_eq rfl hk⟩

end FlashFloppyTestbed.Edsk
