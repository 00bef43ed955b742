/-
  Disk/IbmFm.lean --- the FM half of `src/ibm.c`: sector and track management.

  An FM record has one mark, in front of which there is nothing to see but clock
  bits.  `rdata_wait_sync` recognises it by its clock bits one bitcell early, so that
  31 of the 32 bitcells it has looked at are delivered: two words, a gap byte and the
  mark, when the next bitcell has come in.
-/
import FlashFloppyTestbed.Fm
import FlashFloppyTestbed.Disk.Ibm

set_option autoImplicit false

namespace FlashFloppyTestbed

open FlashFloppyTestbed.Foundation FlashFloppyTestbed.Floppy

/-- `fm_gap_sync`. -/
def fmGapSync : Nat := 6

/-- `fm_gap2`. -/
def fmGap2 : Nat := 11

/-! ## Writing -/

/-- A data field with its gaps: pre-sync gap, DAM, data, CRC, post-data gap. -/
def Out.fmDam (o : Out) (data : List Byte) (gap3 : Nat) : Out :=
  let o := o.memset 0x00 fmGapSync
  let s := o.q
  let o := o.put 0xfb
  let o := o.memcpy data
  let o := o.putCrc s
  o.memset 0xff gap3

/-- A buffer that is ready to be written. -/
structure FmWrite where
  mem : Mem
  wr : Write
  /-- the words that `fm_check` reported -/
  reported : List Nat

/-- `ibm_fm_write_sector(buf, idam, gap3)` up to its search, with its buffer at `p`. -/
def ibmFmSectorBuffer (m : Mem) (p : Nat) (buf : List Byte) (idam : Idam) (gap3 : Nat) :
    FmWrite :=
  let damBytes := fmGapSync + 1 + idam.size + 2 + gap3
  let pad := if damBytes % 2 = 1 then 1 else 0
  let m := binToFm ((Out.mk m p).fmDam buf (gap3 + pad)).mem p (damBytes + pad)
  { mem := m.st16 (p + 2 * fmGapSync) (htobe16 (fmSync 0xfb fmSyncClk))
    wr := ⟨p, damBytes + pad, 0, 0, 0⟩
    reported := fmCheck m p (damBytes + pad) }

/-! ## Searching and reading -/

namespace Disk

/-- The test of `rdata_wait_sync` with `SYNC_fm` passes behind the 32 bitcells from
position `o` on. -/
def FmSyncAt (d : Disk) (o : Nat) : Prop := Sync.fm.Shows (d.stream o 32)

instance (d : Disk) (o : Nat) : Decidable (d.FmSyncAt o) :=
  inferInstanceAs (Decidable (Sync.fm.Shows _))

/-- Where a read that starts at position `t` sees a mark first. -/
def findFmSync (d : Disk) (t : Nat) : Option Nat :=
  ((List.range d.size).map (t + ·)).find? fun o => decide (d.FmSyncAt o)

/-- `floppy_read` with `SYNC_fm`, started at position `t`: the memory it leaves, and the
position of the first bitcell in its buffer. -/
def floppyReadFm (d : Disk) (m : Mem) (p nrWords t : Nat) : Option (Mem × Nat) :=
  (d.findFmSync t).map fun o => (m.stBits p (d.stream (o + 1) (16 * nrWords)), o + 1)

end Disk

/-- The loop of `ibm_fm_search`, entered at position `t₀` and now at `t`, with its buffer
at `p`. -/
def ibmFmSearch (d : Disk) (resume : Nat → Nat) (p : Nat) (idam : Idam) (t₀ : Nat) :
    Nat → Nat → Mem → Bool → Option Found
  | 0, _, _, _ => none
  | fuel + 1, t, m, warned =>
      let warned := warned || decide (2 ≤ d.indexCount t₀ t)
      (d.floppyReadFm m p 8 t).bind fun rd =>
        let m := fmToBin rd.1 p 8
        let endPos := rd.2 + 128
        if m (p + 1) ≠ 0xfe ∨ m.bytes (p + 2) 4 ≠ idam.bytes ∨
            crc16Ccitt (m.bytes (p + 1) 7) 0xffff ≠ 0 then
          ibmFmSearch d resume p idam t₀ fuel (resume endPos) m warned
        else some ⟨m, endPos, warned⟩

/-- What `ibm_fm_read_sector` does with the record in its buffer. -/
def ibmFmCheckDam (m : Mem) (p : Nat) (idam : Idam) : SectorRead :=
  let damBytes := 2 + idam.size + 2
  let reported := fmCheck m (p + 4) (damBytes - 2)
  let m := fmToBin m p damBytes
  { data := m.bytes (p + 2) idam.size
    warned := decide (reported ≠ []) || decide (m (p + 1) ≠ 0xfb) ||
      decide (crc16Ccitt (m.bytes (p + 1) (damBytes - 1)) 0xffff ≠ 0) }

/-- `ibm_fm_read_sector(buf, idam)`, called at position `t`, with its buffers at `p₁` and
`p₂`. -/
def ibmFmReadSector (d : Disk) (resume : Nat → Nat) (fuel : Nat) (m : Mem) (p₁ p₂ : Nat)
    (idam : Idam) (t : Nat) : Option SectorRead :=
  (ibmFmSearch d resume p₁ idam t fuel t m false).bind fun f =>
    let damBytes := 2 + idam.size + 2
    (d.floppyReadFm f.mem p₂ damBytes (resume f.endPos)).map fun rd =>
      let r := ibmFmCheckDam rd.1 p₂ idam
      { r with warned := f.warned || r.warned }

/-- `ibm_fm_write_sector(buf, idam, gap3)`, called at position `t`, with its buffers at
`p₁` and `p₂`, where the write begins exactly `fm_gap2` bytes behind the header. -/
def ibmFmWriteSector (d : Disk) (resume : Nat → Nat) (fuel : Nat) (m : Mem) (p₁ p₂ : Nat)
    (buf : List Byte) (idam : Idam) (gap3 t : Nat) : Option SectorWrite :=
  let w := ibmFmSectorBuffer m p₁ buf idam gap3
  (ibmFmSearch d resume p₂ idam t fuel t w.mem false).map fun f =>
    { disk := d.splice (f.endPos + 16 * fmGap2) (w.wr.bits w.mem)
      warned := f.warned || decide (w.reported ≠ []) }

/-! ## Scanning -/

/-- The loop of `ibm_fm_scan`, with `index.count` set to 1 by the pulse at position 0.
`start` gives `rd.start` for the position of the first bitcell read. -/
def ibmFmScanLoop (d : Disk) (resume : Nat → Nat) (start : Nat → BitVec 32) (p max : Nat)
    (indexTimestamp : BitVec 32) :
    Nat → Nat → Mem → Nat → List ScanInfo → Option (Nat × List ScanInfo)
  | 0, _, _, _, _ => none
  | fuel + 1, t, m, i, info =>
      (d.floppyReadFm m p 8 t).bind fun rd =>
        let endPos := rd.2 + 128
        if 1 + d.indexCount 0 endPos ≠ 1 then some (i, info)
        else
          let m := mfmToBin rd.1 p 8
          if m (p + 1) ≠ 0xfe ∨ crc16Ccitt (m.bytes (p + 1) 7) 0xffff ≠ 0 then
            ibmFmScanLoop d resume start p max indexTimestamp fuel (resume endPos) m i info
          else
            let info := if i < max then
              info ++ [⟨m.bytes (p + 2) 4, start rd.2 - indexTimestamp⟩] else info
            ibmFmScanLoop d resume start p max indexTimestamp fuel (resume endPos) m (i + 1) info

/-- The end of `ibm_fm_scan`: the value it assigns to `*p_gap3`, if it does. -/
def fmScanGap3 (ticksPerCell : BitVec 32) (max i : Nat) (info : List ScanInfo) :
    Option (BitVec 32) :=
  match info with
  | i₀ :: i₁ :: _ =>
      if 2 ≤ i ∧ 2 ≤ max then
        let ticks := i₁.ticksPastIndex - i₀.ticksPastIndex
        let perByte := 16 * ticksPerCell / 8
        let secBytes := (ticks + perByte / 2) / perByte
        let n := (i₀.idam.getD 3 0).toNat
        some (secBytes - BitVec.ofNat 32 (fmGapSync + 5 + 2 + fmGap2) -
          (BitVec.ofNat 32 (fmGapSync + 1 + 2) + 128#32 <<< n))
      else none
  | _ => none

/-- What `ibm_fm_scan` returns: the number of headers, `info[]` as far as it was filled,
and `*p_gap3`, if it was assigned. -/
structure FmScan where
  count : Nat
  info : List ScanInfo
  gap3 : Option (BitVec 32)

/-- `ibm_fm_scan(info, max, p_gap3)`, from the index pulse at position 0 on. -/
def ibmFmScan (d : Disk) (resume : Nat → Nat) (start : Nat → BitVec 32) (fuel : Nat) (m : Mem)
    (p max : Nat) (ticksPerCell indexTimestamp : BitVec 32) (t : Nat) : Option FmScan :=
  (ibmFmScanLoop d resume start p max indexTimestamp fuel t m 0 []).map fun r =>
    { count := r.1, info := r.2, gap3 := fmScanGap3 ticksPerCell max r.1 r.2 }

end FlashFloppyTestbed
