/-
  Disk/Amiga.lean --- `src/amiga.c`: Amiga sector and track management.

  A track is a sequence of 32-bit longs, each of which is emitted as MFM code
  behind the long before it (`Emit.long`), or as it is (`Emit.raw`).  The data of
  a sector is emitted as its even bits, then its odd bits, and is put together
  again in place by the reader (`amigaDecode`).

  The caller's buffer is a memory of its own, which begins at address 0.  The loop
  that waits for the last header runs on `fuel`.
-/
import FlashFloppyTestbed.Disk.Read

set_option autoImplicit false

namespace FlashFloppyTestbed

open FlashFloppyTestbed.Foundation FlashFloppyTestbed.Floppy

/-- The data-bit positions of a long. -/
def dataBits : BitVec 32 := 0x55555555

/-- `_amigados_checksum(dat, longs)`. -/
def amigadosChecksum (m : Mem) (dat longs : Nat) : BitVec 32 :=
  (List.range longs).foldl (fun csum i => csum ^^^ be32toh (m.ld32 (dat + 4 * i))) 0

/-- `amigados_mfm_checksum(dat, longs)`. -/
def amigadosMfmChecksum (m : Mem) (dat longs : Nat) : BitVec 32 :=
  amigadosChecksum m dat longs &&& dataBits

/-- `amigados_dat_checksum(dat, bytes)`. -/
def amigadosDatChecksum (m : Mem) (dat bytes : Nat) : BitVec 32 :=
  let csum := amigadosChecksum m dat (bytes / 4)
  (csum ^^^ (csum >>> 1)) &&& dataBits

/-- `even(x)`. -/
def even (x : BitVec 32) : BitVec 32 := x >>> 1

/-- `odd(x)`. -/
def odd (x : BitVec 32) : BitVec 32 := x

/-- The even bits `x` and the odd bits `y` of a long, put together. -/
def mergeBits (x y : BitVec 32) : BitVec 32 := (x &&& dataBits) <<< 1 ||| (y &&& dataBits)

/-- `get_long(p)`. -/
def getLong (m : Mem) (p : Nat) : BitVec 32 := be32toh (mergeBits (m.ld32 p) (m.ld32 (p + 4)))

/-! ## Writing -/

/-- The memory, the pointer `q` that longs are emitted through, and the last one, `pr`. -/
structure Emit where
  mem : Mem
  q : Nat
  pr : BitVec 32

namespace Emit

/-- `emit_raw(r)`. -/
def raw (e : Emit) (r : BitVec 32) : Emit :=
  ⟨e.mem.st32 e.q (htobe32 (r &&& ~~~(e.pr <<< 31))), e.q + 4, r⟩

/-- `emit_long(l)`. -/
def long (e : Emit) (l : BitVec 32) : Emit :=
  e.raw (l &&& dataBits ||| (~~~(l >>> 2 ||| l) &&& dataBits) <<< 1)

/-- `for (i = 0; i < n; i++) emit_long(f(i))`. -/
def longs (e : Emit) (n : Nat) (f : Nat → BitVec 32) : Emit :=
  (List.range n).foldl (fun e i => e.long (f i)) e

/-- `while (q < end) emit_long(0)`. -/
def gap (last : Nat) (e : Emit) : Emit := if e.q < last then gap last (e.long 0) else e
termination_by last - e.q
decreasing_by
  show last - (e.q + 4) < last - e.q
  omega

end Emit

/-- The info longword of a sector. -/
def amigaInfo (track nsec sec : Nat) : BitVec 32 :=
  0xff#32 <<< 24 ||| BitVec.ofNat 32 track <<< 16 ||| BitVec.ofNat 32 sec <<< 8 |||
    BitVec.ofNat 32 (nsec - sec)

/-- One iteration of the loop of `amiga_track_write` over the sectors; `b` has been moved
on by 512 bytes in each of the iterations before it. -/
def Emit.sector (e : Emit) (buf : Mem) (track nsec sec : Nat) : Emit :=
  let b := 512 * sec
  let e := e.long 0
  let e := e.raw 0x44894489
  let info := amigaInfo track nsec sec
  let e := e.long (even info)
  let e := e.long (odd info)
  let e := e.longs 8 fun _ => 0
  let csum := info ^^^ (info >>> 1)
  let e := e.long 0
  let e := e.long (odd csum)
  let csum := amigadosDatChecksum buf b 512
  let e := e.long 0
  let e := e.long (odd csum)
  let e := e.longs (512 / 4) fun i => even (be32toh (buf.ld32 (b + 4 * i)))
  e.longs (512 / 4) fun i => odd (be32toh (buf.ld32 (b + 4 * i)))

/-- `track_bytes` of `amiga_track_write`, which is a number of words. -/
def amigaTrackWords (nsec : Nat) : Nat :=
  let n := 110000 / 32 * 2
  if nsec ≠ 11 then n * 2 else n

/-- `amiga_track_write(buf, track, nsec)` up to the write, with its buffer at `p`; `none`
is a failed `ASSERT`. -/
def amigaTrackWrite (m : Mem) (p : Nat) (buf : Mem) (track nsec : Nat) : Option (Mem × Write) :=
  if nsec ≠ 11 ∧ nsec ≠ 22 then none
  else
    let n := amigaTrackWords nsec
    let e := (Emit.mk m p 0).longs 32 fun _ => 0
    let e := (List.range nsec).foldl (fun e sec => e.sector buf track nsec sec) e
    let e := e.gap (p + 4 * (n / 2))
    some (e.mem, ⟨p, n, 1, 0, 0⟩)

/-! ## Reading -/

/-- The first loop of `amiga_track_read`, entered at position `t₀` and now at `t`. -/
def amigaSearch (d : Disk) (resume : Nat → Nat) (p t₀ : Nat) :
    Nat → Nat → Mem → Bool → Option Found
  | 0, _, _, _ => none
  | fuel + 1, t, m, warned =>
      let warned := warned || decide (2 ≤ d.indexCount t₀ t)
      (d.floppyRead m p 6 t).bind fun rd =>
        let endPos := rd.2 + 96
        if (getLong rd.1 (p + 4)).setWidth 8 ≠ (1 : Byte) then
          amigaSearch d resume p t₀ fuel (resume endPos) rd.1 warned
        else some ⟨rd.1, endPos, warned⟩

/-- The loop that checks the sync words and replaces them by valid MFM. -/
def amigaFixSync (m : Mem) (p nsec : Nat) : Mem × Bool :=
  (List.range nsec).foldl (fun s i =>
    (s.1.st32 (p + 4 * (i * 272)) (htobe32 0x44a944a9),
      s.2 || decide (s.1.ld32 (p + 4 * (i * 272)) ≠ htobe32 0x44894489))) (m, false)

/-- The loop that decodes the data of a sector in place. -/
def amigaDecode (m : Mem) (p q n : Nat) : Mem :=
  (List.range n).foldl (fun m j =>
    m.st32 (p + 4 * j) (mergeBits (m.ld32 (p + 4 * j)) (m.ld32 (q + 4 * j)))) m

/-- The memory, the pointer `p`, the caller's buffer, and whether a `WARN_ON` has fired. -/
structure AmigaRead where
  mem : Mem
  p : Nat
  buf : Mem
  warned : Bool

/-- One iteration of the loop of `amiga_track_read` over the sectors. -/
def AmigaRead.sector (track nsec : Nat) (s : AmigaRead) (i : Nat) : AmigaRead :=
  let info := getLong s.mem (s.p + 4 * 1)
  let format : Byte := (info >>> 24).setWidth 8
  let trk : Byte := (info >>> 16).setWidth 8
  let sec : Byte := (info >>> 8).setWidth 8
  let togo : Byte := info.setWidth 8
  let p := s.p + 4 * 15
  let q := p + 512
  let m := amigaDecode s.mem p q (512 / 4)
  { mem := m
    p := q + 512 + 4 * 1
    buf := s.buf.stBytes (sec.toNat * 512) (m.bytes p 512)
    warned := s.warned || decide (format ≠ 0xff) || decide (trk.toNat ≠ track) ||
      decide (nsec ≤ sec.toNat) || decide (togo.toNat ≠ nsec - i) ||
      decide (amigadosMfmChecksum s.mem (s.p + 4 * 1) 10 ≠ getLong s.mem (s.p + 4 * 11)) ||
      decide (amigadosMfmChecksum s.mem (s.p + 4 * 15) 256 ≠ getLong s.mem (s.p + 4 * 13)) }

/-- What `amiga_track_read` leaves: the caller's buffer, whether one of its `WARN_ON`s has
fired, and where its read of the track locked. -/
structure AmigaTrack where
  buf : Mem
  warned : Bool
  lock : Nat

/-- `amiga_track_read(buf, track, nsec)`, called at position `t`, with its buffer at `p`. -/
def amigaTrackRead (d : Disk) (resume : Nat → Nat) (fuel : Nat) (m : Mem) (p : Nat) (buf : Mem)
    (track nsec t : Nat) : Option AmigaTrack :=
  (amigaSearch d resume p t fuel t m false).bind fun f =>
    let trackWords := 544 * nsec - 2
    (d.floppyRead f.mem p trackWords (resume f.endPos)).map fun rd =>
      let s := amigaFixSync rd.1 p nsec
      let reported := mfmCheck s.1 p trackWords
      let r := (List.range nsec).foldl (AmigaRead.sector track nsec)
        ⟨s.1, p, buf, f.warned || s.2 || decide (reported ≠ [])⟩
      { buf := r.buf, warned := r.warned, lock := rd.2 }

end FlashFloppyTestbed
