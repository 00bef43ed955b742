/-
  Disk/Ibm.lean --- the MFM half of `src/ibm.c`: sector and track management.

  Buffers are laid out by stores at `q++` (`Out`), converted in place by
  `bin_to_mfm`, and the sync words are patched in.  A write ends up on the disk as
  the bitcells of its buffer (`Disk.splice`); a read is `Disk.floppyRead`.

  The loops that wait for a header run on `fuel`; `none` is a loop that has used
  it up, or a read that never returns.  Lengths in bytes are natural numbers: they
  are lengths of buffers in memory.  Positions are counted in bitcells, and the
  function `resume` gives the position at which the program calls `floppy_read`
  again after a read that ended at its argument.
-/
import FlashFloppyTestbed.Crc
import FlashFloppyTestbed.Disk.Read

set_option autoImplicit false

namespace FlashFloppyTestbed

open FlashFloppyTestbed.Foundation FlashFloppyTestbed.Floppy

/-- `struct idam`. -/
structure Idam where
  c : Byte
  h : Byte
  r : Byte
  n : Byte
  deriving DecidableEq

namespace Idam

/-- The bytes of a `struct idam`. -/
def bytes (i : Idam) : List Byte := [i.c, i.h, i.r, i.n]

/-- `128 << idam->n`, where that does not overflow. -/
def size (i : Idam) : Nat := 128 <<< i.n.toNat

end Idam

/-- `mfm_gap_sync`. -/
def mfmGapSync : Nat := 12

/-- `mfm_gap2`. -/
def mfmGap2 : Nat := 22

/-- `mfm_idam_mark`. -/
def mfmIdamMark : List Byte := [0xa1, 0xa1, 0xa1, 0xfe]

/-! ## Laying out a buffer -/

/-- The memory, and the pointer `q` that a buffer is filled through. -/
structure Out where
  mem : Mem
  q : Nat

namespace Out

/-- `memset(q, v, n); q += n`. -/
def memset (o : Out) (v : Byte) (n : Nat) : Out :=
  ⟨o.mem.stBytes o.q (List.replicate n v), o.q + n⟩

/-- `memcpy(q, l, n); q += n`. -/
def memcpy (o : Out) (l : List Byte) : Out := ⟨o.mem.stBytes o.q l, o.q + l.length⟩

/-- `*q++ = v`. -/
def put (o : Out) (v : Byte) : Out := ⟨o.mem.st8 o.q v, o.q + 1⟩

/-- `crc = crc16_ccitt(s, q-s, 0xffff); *q++ = crc >> 8; *q++ = crc`. -/
def putCrc (o : Out) (s : Nat) : Out :=
  let crc := crc16Ccitt (o.mem.bytes s (o.q - s)) 0xffff
  (o.put ((crc >>> 8).setWidth 8)).put (crc.setWidth 8)

/-- A header with its gaps: pre-sync gap, sync, IDAM, CRC, GAP2. -/
def idam (o : Out) (i : Idam) : Out :=
  let o := o.memset 0x00 mfmGapSync
  let s := o.q
  let o := o.memcpy (mfmIdamMark.take 4)
  let o := o.memcpy i.bytes
  let o := o.putCrc s
  o.memset 0x4e mfmGap2

/-- A data field with its gaps: pre-sync gap, sync, DAM, data, CRC, post-data gap. -/
def dam (o : Out) (data : List Byte) (gap3 : Nat) : Out :=
  let o := o.memset 0x00 mfmGapSync
  let s := o.q
  let o := o.memcpy (mfmIdamMark.take 3)
  let o := o.put 0xfb
  let o := o.memcpy data
  let o := o.putCrc s
  o.memset 0x4e gap3

end Out

/-- Three times `*sync++ = htobe16(0x4489)`, from word `off` of the buffer on. -/
def patchSync (p : Nat) (m : Mem) (off : Nat) : Mem :=
  ((m.st16 (p + 2 * off) (htobe16 syncWord)).st16 (p + 2 * (off + 1)) (htobe16 syncWord)).st16
    (p + 2 * (off + 2)) (htobe16 syncWord)

/-- A buffer that is ready to be written. -/
structure MfmWrite where
  mem : Mem
  wr : Write
  /-- `sync_off` -/
  syncOff : List Nat
  /-- the words that `mfm_check` reported -/
  reported : List Nat

/-- The end of a buffer's generation: convert to MFM, check, and fix the sync words. -/
def finishMfm (m : Mem) (p nrWords : Nat) (terminateAtIndex : BitVec 32) (syncOff : List Nat) :
    MfmWrite :=
  let m := binToMfm m p nrWords
  { mem := syncOff.foldl (patchSync p) m
    wr := ⟨p, nrWords, terminateAtIndex, 0, 0⟩
    syncOff := syncOff
    reported := mfmCheck m (p + 2) (nrWords - 1) }

/-! ## Writing -/

/-- One iteration of the generating loop of `ibm_mfm_write_track`. -/
def trackSector (p gap3 : Nat) (b : Out × List Nat) (i : Idam) : Out × List Nat :=
  let o := b.1.idam i
  (o.dam (List.replicate i.size 0xe2) gap3,
    b.2 ++ [b.1.q + mfmGapSync - p, o.q + mfmGapSync - p])

/-- The write length of `ibm_mfm_write_track`. -/
def trackBytes (idams : List Idam) (gap3 : Nat) : Nat :=
  let idamBytes := mfmGapSync + 8 + 2 + mfmGap2
  let damBytes := mfmGapSync + 4 + 2 + gap3
  let n := 64 + (idams.map fun i => idamBytes + damBytes + i.size).sum + 64
  if n % 2 = 1 then n + 1 else n

/-- `ibm_mfm_write_track(idam, nr, gap3)` up to the write, with its buffer at `p`. -/
def ibmMfmWriteTrack (m : Mem) (p : Nat) (idams : List Idam) (gap3 : Nat) : MfmWrite :=
  let o := (Out.mk m p).memset 0x4e 64
  let b := idams.foldl (trackSector p gap3) (o, [])
  finishMfm (b.1.memset 0x4e 64).mem p (trackBytes idams gap3) 1 b.2

/-- `ibm_mfm_write_sector(buf, idam, gap3)` up to its search, with its buffer at `p`. -/
def ibmMfmSectorBuffer (m : Mem) (p : Nat) (buf : List Byte) (idam : Idam) (gap3 : Nat) :
    MfmWrite :=
  let damBytes := mfmGapSync + 4 + idam.size + 2 + gap3
  let pad := if damBytes % 2 = 1 then 1 else 0
  finishMfm ((Out.mk m p).dam buf (gap3 + pad)).mem p (damBytes + pad) 0 [mfmGapSync]

/-- Bitcells written over the revolution from position `t` on. -/
def Disk.splice (d : Disk) (t : Nat) (l : List Bool) : Disk :=
  { d with cells := fun r => l.getD ((r + d.size - t % d.size) % d.size) (d.cells r) }

/-! ## Searching and reading -/

/-- The loop of `ibm_mfm_search`, entered at position `t₀` and now at `t`, with its
buffer at `p`. -/
def ibmMfmSearch (d : Disk) (resume : Nat → Nat) (p : Nat) (idam : Idam) (t₀ : Nat) :
    Nat → Nat → Mem → Bool → Option Found
  | 0, _, _, _ => none
  | fuel + 1, t, m, warned =>
      let warned := warned || decide (2 ≤ d.indexCount t₀ t)
      (d.floppyRead m p 10 t).bind fun rd =>
        let m := mfmToBin rd.1 p 10
        let endPos := rd.2 + 160
        if m.bytes p 4 ≠ mfmIdamMark ∨ m.bytes (p + 4) 4 ≠ idam.bytes ∨
            crc16Ccitt (m.bytes p 10) 0xffff ≠ 0 then
          ibmMfmSearch d resume p idam t₀ fuel (resume endPos) m warned
        else some ⟨m, endPos, warned⟩

/-- What a sector read returns, and whether one of its `WARN_ON`s has fired. -/
structure SectorRead where
  data : List Byte
  warned : Bool
  deriving DecidableEq

/-- `ibm_mfm_read_sector(buf, idam)`, called at position `t`, with its buffers at `p₁`
and `p₂`. -/
def ibmMfmReadSector (d : Disk) (resume : Nat → Nat) (fuel : Nat) (m : Mem) (p₁ p₂ : Nat)
    (idam : Idam) (t : Nat) : Option SectorRead :=
  (ibmMfmSearch d resume p₁ idam t fuel t m false).bind fun f =>
    let damBytes := 4 + idam.size + 2
    (d.floppyRead f.mem p₂ damBytes (resume f.endPos)).map fun rd =>
      let reported := mfmCheck rd.1 (p₂ + 6) (damBytes - 3)
      let m := mfmToBin rd.1 p₂ damBytes
      { data := m.bytes (p₂ + 4) idam.size
        warned := f.warned || decide (reported ≠ []) ||
          decide (m.bytes p₂ 3 ≠ mfmIdamMark.take 3) || decide (m (p₂ + 3) ≠ 0xfb) ||
          decide (crc16Ccitt (m.bytes p₂ damBytes) 0xffff ≠ 0) }

/-- The disk a sector write leaves, and whether one of its `WARN_ON`s has fired. -/
structure SectorWrite where
  disk : Disk
  warned : Bool

/-- `ibm_mfm_write_sector(buf, idam, gap3)`, called at position `t`, with its buffers at
`p₁` and `p₂`, where the write begins exactly `mfm_gap2` bytes behind the header. -/
def ibmMfmWriteSector (d : Disk) (resume : Nat → Nat) (fuel : Nat) (m : Mem) (p₁ p₂ : Nat)
    (buf : List Byte) (idam : Idam) (gap3 t : Nat) : Option SectorWrite :=
  let w := ibmMfmSectorBuffer m p₁ buf idam gap3
  (ibmMfmSearch d resume p₂ idam t fuel t w.mem false).map fun f =>
    { disk := d.splice (f.endPos + 16 * mfmGap2) (w.wr.bits w.mem)
      warned := f.warned || decide (w.reported ≠ []) }

/-! ## Scanning -/

/-- `struct ibm_scan_info`. -/
structure ScanInfo where
  idam : List Byte
  ticksPastIndex : BitVec 32
  deriving DecidableEq

/-- The loop of `ibm_mfm_scan`, with `index.count` set to 1 by the pulse at position 0.
`start` gives `rd.start` for the position of the mark. -/
def ibmMfmScanLoop (d : Disk) (resume : Nat → Nat) (start : Nat → BitVec 32) (p max : Nat)
    (indexTimestamp : BitVec 32) :
    Nat → Nat → Mem → Nat → List ScanInfo → Option (Nat × List ScanInfo)
  | 0, _, _, _, _ => none
  | fuel + 1, t, m, i, info =>
      (d.floppyRead m p 10 t).bind fun rd =>
        let endPos := rd.2 + 160
        if 1 + d.indexCount 0 endPos ≠ 1 then some (i, info)
        else
          let m := mfmToBin rd.1 p 10
          if m.bytes p 4 ≠ mfmIdamMark ∨ crc16Ccitt (m.bytes p 10) 0xffff ≠ 0 then
            ibmMfmScanLoop d resume start p max indexTimestamp fuel (resume endPos) m i info
          else
            let info := if i < max then
              info ++ [⟨m.bytes (p + 4) 4, start rd.2 - indexTimestamp⟩] else info
            ibmMfmScanLoop d resume start p max indexTimestamp fuel (resume endPos) m (i + 1) info

/-- The end of `ibm_mfm_scan`: the value for `*p_gap3`. -/
def scanGap3 (ticksPerCell : BitVec 32) (max i : Nat) (info : List ScanInfo) : BitVec 32 :=
  match info with
  | i₀ :: i₁ :: _ =>
      if 2 ≤ i ∧ 2 ≤ max then
        let ticks := i₁.ticksPastIndex - i₀.ticksPastIndex
        let perByte := 16 * ticksPerCell / 8
        let secBytes := (ticks + perByte / 2) / perByte
        let n := (i₀.idam.getD 3 0).toNat
        secBytes - BitVec.ofNat 32 (mfmGapSync + 8 + 2 + mfmGap2) -
          (BitVec.ofNat 32 (mfmGapSync + 4 + 2) + 128#32 <<< n)
      else 84
  | _ => 84

/-- What `ibm_mfm_scan` returns: the number of headers, `info[]` as far as it was
filled, and `*p_gap3`. -/
structure IbmScan where
  count : Nat
  info : List ScanInfo
  gap3 : BitVec 32

/-- `ibm_mfm_scan(info, max, p_gap3)`, from the index pulse at position 0 on. -/
def ibmMfmScan (d : Disk) (resume : Nat → Nat) (start : Nat → BitVec 32) (fuel : Nat) (m : Mem)
    (p max : Nat) (ticksPerCell indexTimestamp : BitVec 32) (t : Nat) : Option IbmScan :=
  (ibmMfmScanLoop d resume start p max indexTimestamp fuel t m 0 []).map fun r =>
    { count := r.1, info := r.2, gap3 := scanGap3 ticksPerCell max r.1 r.2 }

end FlashFloppyTestbed
