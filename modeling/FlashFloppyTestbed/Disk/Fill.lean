/-
  Disk/Fill.lean --- the generators of `src/ibm.c` fill what they transmit.

  A `Filling` is an `Out` that also knows the words that its buffer was allocated with and
  the addresses it was stored to; without these two it is the generator itself
  (`ibmMfmSectorFilling_out`, `ibmFmSectorFilling_out`, `ibmMfmTrackFilling_out`).  The
  cursor only ever moves on by what it has stored (`Filling.Run`), so a buffer is filled if
  its length, computed up front, is that of what is stored.

  `ibm_mfm_write_track` rounds its length up without storing the byte that it adds, other
  than the sector writers do (`ibmMfmTrack_fills_iff`).
-/
import FlashFloppyTestbed.Disk.Layout
import FlashFloppyTestbed.Disk.IbmFm

set_option autoImplicit false

namespace FlashFloppyTestbed

open FlashFloppyTestbed.Foundation FlashFloppyTestbed.Floppy

/-! ## Generators that keep a record -/

/-- An `Out`, the words its buffer was allocated with, and the addresses it was stored to. -/
structure Filling where
  out : Out
  words : Nat
  stores : List Nat

namespace Filling

/-- `q = p = bc_buf_alloc(words)`. -/
def alloc (m : Mem) (p words : Nat) : Filling := ⟨⟨m, p⟩, words, []⟩

/-- `memset(q, v, n); q += n`. -/
def memset (f : Filling) (v : Byte) (n : Nat) : Filling :=
  ⟨f.out.memset v n, f.words, f.stores ++ List.range' f.out.q n⟩

/-- `memcpy(q, l, n); q += n`. -/
def memcpy (f : Filling) (l : List Byte) : Filling :=
  ⟨f.out.memcpy l, f.words, f.stores ++ List.range' f.out.q l.length⟩

/-- `*q++ = v`. -/
def put (f : Filling) (v : Byte) : Filling := ⟨f.out.put v, f.words, f.stores ++ [f.out.q]⟩

/-- `crc = crc16_ccitt(s, q-s, 0xffff); *q++ = crc >> 8; *q++ = crc`. -/
def putCrc (f : Filling) (s : Nat) : Filling :=
  let crc := crc16Ccitt (f.out.mem.bytes s (f.out.q - s)) 0xffff
  (f.put ((crc >>> 8).setWidth 8)).put (crc.setWidth 8)

/-- A header with its gaps: pre-sync gap, sync, IDAM, CRC, GAP2. -/
def idam (f : Filling) (i : Idam) : Filling :=
  let f := f.memset 0x00 mfmGapSync
  let s := f.out.q
  let f := f.memcpy (mfmIdamMark.take 4)
  let f := f.memcpy i.bytes
  let f := f.putCrc s
  f.memset 0x4e mfmGap2

/-- A data field with its gaps: pre-sync gap, sync, DAM, data, CRC, post-data gap. -/
def dam (f : Filling) (data : List Byte) (gap3 : Nat) : Filling :=
  let f := f.memset 0x00 mfmGapSync
  let s := f.out.q
  let f := f.memcpy (mfmIdamMark.take 3)
  let f := f.put 0xfb
  let f := f.memcpy data
  let f := f.putCrc s
  f.memset 0x4e gap3

/-- An FM data field with its gaps: pre-sync gap, DAM, data, CRC, post-data gap. -/
def fmDam (f : Filling) (data : List Byte) (gap3 : Nat) : Filling :=
  let f := f.memset 0x00 fmGapSync
  let s := f.out.q
  let f := f.put 0xfb
  let f := f.memcpy data
  let f := f.putCrc s
  f.memset 0xff gap3

/-- One iteration of the generating loop of `ibm_mfm_write_track`. -/
def trackSector (p gap3 : Nat) (b : Filling × List Nat) (i : Idam) : Filling × List Nat :=
  let f := b.1.idam i
  (f.dam (List.replicate i.size 0xe2) gap3,
    b.2 ++ [b.1.out.q + mfmGapSync - p, f.out.q + mfmGapSync - p])

end Filling

/-- `ibm_mfm_write_sector(buf, idam, gap3)` up to its conversion. -/
def ibmMfmSectorFilling (m : Mem) (p : Nat) (buf : List Byte) (idam : Idam) (gap3 : Nat) :
    Filling :=
  let damBytes := mfmGapSync + 4 + idam.size + 2 + gap3
  let pad := if damBytes % 2 = 1 then 1 else 0
  (Filling.alloc m p (damBytes + pad)).dam buf (gap3 + pad)

/-- `ibm_fm_write_sector(buf, idam, gap3)` up to its conversion. -/
def ibmFmSectorFilling (m : Mem) (p : Nat) (buf : List Byte) (idam : Idam) (gap3 : Nat) :
    Filling :=
  let damBytes := fmGapSync + 1 + idam.size + 2 + gap3
  let pad := if damBytes % 2 = 1 then 1 else 0
  (Filling.alloc m p (damBytes + pad)).fmDam buf (gap3 + pad)

/-- `ibm_mfm_write_track(idam, nr, gap3)` up to its conversion, with `sync_off`. -/
def ibmMfmTrackFilling (m : Mem) (p : Nat) (idams : List Idam) (gap3 : Nat) :
    Filling × List Nat :=
  let f := (Filling.alloc m p (trackBytes idams gap3)).memset 0x4e 64
  let b := idams.foldl (Filling.trackSector p gap3) (f, [])
  (b.1.memset 0x4e 64, b.2)

/-- Without its record, a filling is what the generator converts. -/
theorem ibmMfmSectorFilling_out (m : Mem) (p : Nat) (buf : List Byte) (idam : Idam) (gap3 : Nat) :
    ibmMfmSectorBuffer m p buf idam gap3 =
      let f := ibmMfmSectorFilling m p buf idam gap3
      finishMfm f.out.mem p f.words 0 [mfmGapSync] := rfl

theorem ibmFmSectorFilling_out (m : Mem) (p : Nat) (buf : List Byte) (idam : Idam) (gap3 : Nat) :
    let f := ibmFmSectorFilling m p buf idam gap3
    let w := ibmFmSectorBuffer m p buf idam gap3
    w.wr = ⟨p, f.words, 0, 0, 0⟩ ∧
      w.mem = (binToFm f.out.mem p f.words).st16 (p + 2 * fmGapSync)
        (htobe16 (fmSync 0xfb fmSyncClk)) := ⟨rfl, rfl⟩

theorem foldl_filling (p gap3 : Nat) (idams : List Idam) : ∀ (f : Filling) (offs : List Nat),
    idams.foldl (trackSector p gap3) (f.out, offs) =
      ((idams.foldl (Filling.trackSector p gap3) (f, offs)).1.out,
        (idams.foldl (Filling.trackSector p gap3) (f, offs)).2) := by
  induction idams with
  | nil => exact fun _ _ => rfl
  | cons i idams ih =>
    intro f offs
    exact ih (Filling.trackSector p gap3 (f, offs) i).1 (Filling.trackSector p gap3 (f, offs) i).2

theorem ibmMfmTrackFilling_out (m : Mem) (p : Nat) (idams : List Idam) (gap3 : Nat) :
    ibmMfmWriteTrack m p idams gap3 =
      let f := ibmMfmTrackFilling m p idams gap3
      finishMfm f.1.out.mem p (trackBytes idams gap3) 1 f.2 := by
  have hfold := foldl_filling p gap3 idams
    ((Filling.alloc m p (trackBytes idams gap3)).memset 0x4e 64) []
  rw [ibmMfmWriteTrack, ibmMfmTrackFilling]
  simp only [show (Out.mk m p).memset 0x4e 64 =
    ((Filling.alloc m p (trackBytes idams gap3)).memset 0x4e 64).out from rfl, hfold]
  rfl

/-! ## What a generator stores -/

namespace Filling

/-- The first `n` bytes from `p` on have been stored to, in order, and nothing else of the
memory `m` has changed. -/
structure Run (m : Mem) (p n : Nat) (f : Filling) : Prop where
  q_eq : f.out.q = p + n
  stores_eq : f.stores = List.range' p n
  frame : ∀ a, a < p ∨ p + n ≤ a → f.out.mem a = m a

namespace Run

variable {m : Mem} {p n : Nat} {f : Filling}

theorem alloc (m : Mem) (p words : Nat) : Run m p 0 (alloc m p words) :=
  ⟨rfl, rfl, fun _ _ => rfl⟩

theorem memcpy (h : Run m p n f) (l : List Byte) : Run m p (n + l.length) (f.memcpy l) where
  q_eq := by
    show f.out.q + l.length = _
    rw [h.q_eq, Nat.add_assoc]
  stores_eq := by
    rw [Filling.memcpy, h.stores_eq, h.q_eq, List.range'_append_1]
  frame := by
    intro a ha
    have hframe := h.frame a (by omega)
    rw [← hframe]
    show f.out.mem.stBytes f.out.q l a = _
    rcases ha with ha | ha
    · exact Mem.stBytes_of_lt _ l (by rw [h.q_eq]; omega)
    · exact Mem.stBytes_of_le _ l (by rw [h.q_eq]; omega)

theorem memset (h : Run m p n f) (v : Byte) (k : Nat) : Run m p (n + k) (f.memset v k) := by
  have hcopy := h.memcpy (List.replicate k v)
  rw [Filling.memcpy, Out.memcpy, List.length_replicate] at hcopy
  exact hcopy

theorem put (h : Run m p n f) (v : Byte) : Run m p (n + 1) (f.put v) where
  q_eq := by
    show f.out.q + 1 = _
    rw [h.q_eq, Nat.add_assoc]
  stores_eq := by
    rw [Filling.put, h.stores_eq, h.q_eq, ← List.range'_append_1]
    rfl
  frame := by
    intro a ha
    rw [← h.frame a (by omega)]
    exact Mem.st8_of_ne _ v (by rw [h.q_eq]; omega)

theorem putCrc (h : Run m p n f) (s : Nat) : Run m p (n + 2) (f.putCrc s) :=
  (h.put _).put _

theorem idam (h : Run m p n f) (i : Idam) : Run m p (n + 44) (f.idam i) :=
  ((((h.memset 0x00 mfmGapSync).memcpy (mfmIdamMark.take 4)).memcpy i.bytes).putCrc _).memset 0x4e
    mfmGap2

theorem dam (h : Run m p n f) (data : List Byte) (gap3 : Nat) :
    Run m p (n + (18 + data.length + gap3)) (f.dam data gap3) := by
  have hall := (((((h.memset 0x00 mfmGapSync).memcpy (mfmIdamMark.take 3)).put 0xfb).memcpy
    data).putCrc (f.out.q + mfmGapSync)).memset 0x4e gap3
  rw [show n + (18 + data.length + gap3) =
    n + mfmGapSync + (mfmIdamMark.take 3).length + 1 + data.length + 2 + gap3 by
      rw [mfmGapSync, mfmIdamMark]
      simp only [List.take, List.length_cons, List.length_nil]
      omega]
  exact hall

theorem fmDam (h : Run m p n f) (data : List Byte) (gap3 : Nat) :
    Run m p (n + (9 + data.length + gap3)) (f.fmDam data gap3) := by
  have hall := ((((h.memset 0x00 fmGapSync).put 0xfb).memcpy data).putCrc
    (f.out.q + fmGapSync)).memset 0xff gap3
  rw [show n + (9 + data.length + gap3) = n + fmGapSync + 1 + data.length + 2 + gap3 by
    rw [fmGapSync]
    omega]
  exact hall

end Run

end Filling

/-- What a sector of `ibm_mfm_write_track` takes up. -/
def sectorBytes (gap3 : Nat) (i : Idam) : Nat := 62 + i.size + gap3

theorem Filling.Run.sectors {m : Mem} {p : Nat} (gap3 : Nat) (idams : List Idam) :
    ∀ {n : Nat} {f : Filling} {offs : List Nat}, f.Run m p n →
      (∀ off ∈ offs, off + 3 ≤ n) →
      let b := idams.foldl (trackSector p gap3) (f, offs)
      let n' := n + (idams.map (sectorBytes gap3)).sum
      b.1.words = f.words ∧ b.1.Run m p n' ∧ ∀ off ∈ b.2, off + 3 ≤ n' := by
  induction idams with
  | nil => exact fun h hoffs => ⟨rfl, h, hoffs⟩
  | cons i idams ih =>
    intro n f offs h hoffs
    have hidam := h.idam i
    have hdam := hidam.dam (List.replicate i.size 0xe2) gap3
    have hlen : n + 44 + (18 + (List.replicate i.size (0xe2 : Byte)).length + gap3) =
        n + sectorBytes gap3 i := by
      rw [List.length_replicate, sectorBytes]
      omega
    rw [hlen] at hdam
    have hmarks : ∀ off ∈ (trackSector p gap3 (f, offs) i).2, off + 3 ≤ n + sectorBytes gap3 i := by
      intro off hoff
      rcases List.mem_append.mp hoff with hoff | hoff
      · exact (hoffs off hoff).trans (Nat.le_add_right _ _)
      · simp only [List.mem_cons, List.not_mem_nil, or_false, h.q_eq, hidam.q_eq] at hoff
        unfold mfmGapSync at hoff
        unfold sectorBytes
        omega
    have hrest := ih hdam hmarks
    rw [List.map_cons, List.sum_cons, ← Nat.add_assoc]
    exact hrest

/-! ## Filled buffers -/

/-- A buffer of `words` words from address `p` on is filled: all of its words are handed to
the write path, an even number; each of the bytes that are to be converted has been stored
to once; and no store was behind the buffer or in front of it, neither before the conversion
nor, with `m` made `m'`, in the end. -/
structure Fills (m : Mem) (p : Nat) (f : Filling) (wr : Write) (m' : Mem) : Prop where
  start : wr.p = p
  words : wr.nrWords = f.words
  even : wr.nrWords % 2 = 0
  once : ∀ i, i < wr.nrWords → f.stores.count (p + i) = 1
  inside : ∀ a ∈ f.stores, p ≤ a ∧ a < p + 2 * wr.nrWords
  frame : ∀ a, a < p ∨ p + 2 * wr.nrWords ≤ a → m' a = m a

section Fills

variable {m m' : Mem} {p n : Nat} {f : Filling} {wr : Write}

/-- A buffer is filled if its length is that of what was stored. -/
theorem Filling.Run.fills (h : f.Run m p n) (hwords : f.words = n) (heven : n % 2 = 0)
    (hp : wr.p = p) (hnr : wr.nrWords = n)
    (hframe : ∀ a, a < p ∨ p + 2 * n ≤ a → m' a = f.out.mem a) : Fills m p f wr m' where
  start := hp
  words := hnr.trans hwords.symm
  even := by rw [hnr, heven]
  once := by
    intro i hi
    rw [h.stores_eq, List.count_range_1', if_pos (by omega)]
  inside := by
    intro a ha
    rw [h.stores_eq, List.mem_range'_1] at ha
    omega
  frame := by
    intro a ha
    rw [hnr] at ha
    rw [hframe a ha, h.frame a (by omega)]

/-- It is not filled if it is longer. -/
theorem Filling.Run.not_fills (h : f.Run m p n) (hlt : n < wr.nrWords) : ¬ Fills m p f wr m' := by
  intro hfills
  have honce := hfills.once n hlt
  rw [h.stores_eq, List.count_range_1', if_neg (by omega)] at honce
  cases honce

end Fills

theorem patchSync_frame (p : Nat) (m : Mem) {off a : Nat}
    (h : a < p + 2 * off ∨ p + 2 * (off + 3) ≤ a) : patchSync p m off a = m a := by
  have hstore : ∀ (m : Mem) k, off ≤ k → k < off + 3 →
      m.st16 (p + 2 * k) (htobe16 syncWord) a = m a := by
    intro m k hlo hhi
    rcases h with h | h
    · exact Mem.st16_of_lt m _ (by omega)
    · exact Mem.st16_of_le m _ (by omega)
  rw [patchSync, hstore _ _ (by omega) (by omega), hstore _ _ (by omega) (by omega),
    hstore _ _ (by omega) (by omega)]

/-- The conversion stores to its buffer only, if the sync words are in it. -/
theorem finishMfm_frame (m : Mem) {p n : Nat} (terminateAtIndex : BitVec 32) {offs : List Nat}
    (hoffs : ∀ off ∈ offs, off + 3 ≤ n) {a : Nat} (ha : a < p ∨ p + 2 * n ≤ a) :
    (finishMfm m p n terminateAtIndex offs).mem a = m a := by
  have hpatch : ∀ (offs : List Nat) (m : Mem), (∀ off ∈ offs, off + 3 ≤ n) →
      offs.foldl (patchSync p) m a = m a := by
    intro offs
    induction offs with
    | nil => exact fun _ _ => rfl
    | cons off offs ih =>
      intro m hoffs
      have hoff := hoffs off List.mem_cons_self
      rw [List.foldl_cons, ih _ fun off' hoff' => hoffs off' (List.mem_cons_of_mem off hoff')]
      exact patchSync_frame p m (by omega)
  exact (hpatch offs _ hoffs).trans (binToMfm_frame m p n ha)

/-! ## The generators -/

/-- What `ibm_mfm_write_track` stores. -/
def storedBytes (gap3 : Nat) (idams : List Idam) : Nat :=
  64 + (idams.map (sectorBytes gap3)).sum + 64

theorem trackBytes_eq_storedBytes (idams : List Idam) (gap3 : Nat) :
    trackBytes idams gap3 = storedBytes gap3 idams + storedBytes gap3 idams % 2 := by
  have hsum : (idams.map fun i => mfmGapSync + 8 + 2 + mfmGap2 + (mfmGapSync + 4 + 2 + gap3) +
      i.size) = idams.map (sectorBytes gap3) := by
    refine List.map_congr_left fun i _ => ?_
    unfold mfmGapSync mfmGap2 sectorBytes
    omega
  rw [trackBytes, hsum, ← storedBytes]
  split <;> omega

/-- Sectors are of an even size, so that only their gaps count. -/
theorem storedBytes_mod_two (gap3 : Nat) (idams : List Idam) :
    storedBytes gap3 idams % 2 = idams.length * gap3 % 2 := by
  have hsum : (idams.map (sectorBytes gap3)).sum % 2 = idams.length * gap3 % 2 := by
    induction idams with
    | nil => rw [List.map_nil, List.sum_nil, List.length_nil, Nat.zero_mul]
    | cons i idams ih =>
      have hsize := i.size_eq
      rw [List.map_cons, List.sum_cons, List.length_cons, Nat.succ_mul, sectorBytes]
      omega
  rw [storedBytes]
  omega

theorem ibmMfmSector_fills (m : Mem) (p : Nat) {buf : List Byte} {idam : Idam} (gap3 : Nat)
    (hbuf : buf.length = idam.size) :
    Fills m p (ibmMfmSectorFilling m p buf idam gap3) (ibmMfmSectorBuffer m p buf idam gap3).wr
      (ibmMfmSectorBuffer m p buf idam gap3).mem := by
  obtain ⟨pad, hpad⟩ : ∃ pad, pad =
    if (mfmGapSync + 4 + idam.size + 2 + gap3) % 2 = 1 then 1 else 0 := ⟨_, rfl⟩
  have hlen : 0 + (18 + buf.length + (gap3 + pad)) =
      mfmGapSync + 4 + idam.size + 2 + gap3 + pad := by
    rw [hbuf, mfmGapSync]
    omega
  have hrun := (Filling.Run.alloc m p (mfmGapSync + 4 + idam.size + 2 + gap3 + pad)).dam buf
    (gap3 + pad)
  have heven : (mfmGapSync + 4 + idam.size + 2 + gap3 + pad) % 2 = 0 := by
    rw [hpad]
    split <;> omega
  rw [hlen] at hrun
  rw [ibmMfmSectorFilling_out, ibmMfmSectorFilling, ← hpad]
  refine hrun.fills rfl heven rfl rfl fun a ha => ?_
  refine finishMfm_frame _ 0 (fun off hoff => ?_) ha
  rw [List.mem_singleton.mp hoff]
  show mfmGapSync + 3 ≤ mfmGapSync + 4 + idam.size + 2 + gap3 + pad
  omega

theorem ibmFmSector_fills (m : Mem) (p : Nat) {buf : List Byte} {idam : Idam} (gap3 : Nat)
    (hbuf : buf.length = idam.size) :
    Fills m p (ibmFmSectorFilling m p buf idam gap3) (ibmFmSectorBuffer m p buf idam gap3).wr
      (ibmFmSectorBuffer m p buf idam gap3).mem := by
  obtain ⟨pad, hpad⟩ : ∃ pad, pad =
    if (fmGapSync + 1 + idam.size + 2 + gap3) % 2 = 1 then 1 else 0 := ⟨_, rfl⟩
  have hlen : 0 + (9 + buf.length + (gap3 + pad)) = fmGapSync + 1 + idam.size + 2 + gap3 + pad := by
    rw [hbuf, fmGapSync]
    omega
  have hrun := (Filling.Run.alloc m p (fmGapSync + 1 + idam.size + 2 + gap3 + pad)).fmDam buf
    (gap3 + pad)
  have heven : (fmGapSync + 1 + idam.size + 2 + gap3 + pad) % 2 = 0 := by
    rw [hpad]
    split <;> omega
  obtain ⟨hwr, hmem⟩ := ibmFmSectorFilling_out m p buf idam gap3
  rw [hlen] at hrun
  rw [hwr, hmem, ibmFmSectorFilling, ← hpad]
  refine hrun.fills rfl heven rfl rfl fun a ha => ?_
  -- the mark is in the buffer
  have hmark : ∀ m : Mem, m.st16 (p + 2 * fmGapSync) (htobe16 (fmSync 0xfb fmSyncClk)) a = m a := by
    intro m
    rcases ha with ha | ha
    · exact Mem.st16_of_lt m _ (by omega)
    · exact Mem.st16_of_le m _ (by omega)
  exact (hmark _).trans (binToFm_frame _ p _ ha)

/-- **`ibm_mfm_write_track`** fills its buffer if and only if there was nothing to round up. -/
theorem ibmMfmTrack_fills_iff (m : Mem) (p : Nat) (idams : List Idam) (gap3 : Nat) :
    Fills m p (ibmMfmTrackFilling m p idams gap3).1 (ibmMfmWriteTrack m p idams gap3).wr
      (ibmMfmWriteTrack m p idams gap3).mem ↔ idams.length * gap3 % 2 = 0 := by
  have hgap := (Filling.Run.alloc m p (trackBytes idams gap3)).memset 0x4e 64
  have hnone : ∀ off ∈ ([] : List Nat), off + 3 ≤ 0 + 64 := nofun
  obtain ⟨hwords, hsectors, hoffs⟩ := hgap.sectors gap3 idams hnone
  have hrun := hsectors.memset 0x4e 64
  have hbytes := trackBytes_eq_storedBytes idams gap3
  have hpar := storedBytes_mod_two gap3 idams
  rw [Nat.zero_add, ← storedBytes] at hrun
  rw [ibmMfmTrackFilling_out]
  constructor
  · intro hfills
    by_contra hodd
    refine hrun.not_fills ?_ hfills
    show storedBytes gap3 idams < trackBytes idams gap3
    omega
  · intro heven
    rw [hpar, heven, Nat.add_zero] at hbytes
    refine hrun.fills (hwords.trans hbytes) (by omega) rfl hbytes fun a ha => ?_
    refine finishMfm_frame _ 1 (fun off hoff => ?_) (by rw [hbytes]; exact ha)
    have hle := hoffs off hoff
    rw [hbytes, storedBytes]
    omega

/-- **Generators fill what they transmit**: the sector writers always, and
`ibm_mfm_write_track` if and only if it lays out an even number of sectors or the gap behind
them is even. -/
theorem generators_fill_iff (m : Mem) (p : Nat) :
    (∀ (buf : List Byte) (idam : Idam) (gap3 : Nat), buf.length = idam.size →
      Fills m p (ibmMfmSectorFilling m p buf idam gap3)
        (ibmMfmSectorBuffer m p buf idam gap3).wr (ibmMfmSectorBuffer m p buf idam gap3).mem) ∧
    (∀ (buf : List Byte) (idam : Idam) (gap3 : Nat), buf.length = idam.size →
      Fills m p (ibmFmSectorFilling m p buf idam gap3)
        (ibmFmSectorBuffer m p buf idam gap3).wr (ibmFmSectorBuffer m p buf idam gap3).mem) ∧
    ∀ (idams : List Idam) (gap3 : Nat),
      Fills m p (ibmMfmTrackFilling m p idams gap3).1
        (ibmMfmWriteTrack m p idams gap3).wr (ibmMfmWriteTrack m p idams gap3).mem ↔
        idams.length * gap3 % 2 = 0 :=
  ⟨fun _ _ gap3 hbuf => ibmMfmSector_fills m p gap3 hbuf,
    fun _ _ gap3 hbuf => ibmFmSector_fills m p gap3 hbuf,
    fun idams gap3 => ibmMfmTrack_fills_iff m p idams gap3⟩

/-- One sector with a gap of one byte: the last byte of the buffer is not stored to. -/
theorem generators_fill_odd_track :
    ¬ Fills (fun _ => 0) 0 (ibmMfmTrackFilling (fun _ => 0) 0 [⟨0, 0, 1, 0⟩] 1).1
      (ibmMfmWriteTrack (fun _ => 0) 0 [⟨0, 0, 1, 0⟩] 1).wr
      (ibmMfmWriteTrack (fun _ => 0) 0 [⟨0, 0, 1, 0⟩] 1).mem := by
  intro hfills
  have heven := (ibmMfmTrack_fills_iff _ _ _ _).mp hfills
  revert heven
  decide

/-- A sector of 128 bytes with an odd gap. -/
theorem generators_fill_sector :
    (ibmMfmSectorFilling (fun _ => 0) 0 (List.replicate 128 0xe5) ⟨0, 0, 1, 0⟩ 1).stores.count
      (0 + 147) = 1 :=
  ((generators_fill_iff (fun _ => 0) 0).1 (List.replicate 128 0xe5) ⟨0, 0, 1, 0⟩ 1
    List.length_replicate).once 147 (by decide)

end FlashFloppyTestbed
