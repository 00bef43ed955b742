/-
  Disk/IbmDamage.lean --- bursts of wrong bitcells in an IBM data field.

  `crc16_ccitt` detects every burst of 16 bits, and a byte has its bits in every other
  bitcell.  A burst of up to 32 bitcells behind the mark of a data field therefore
  changes no more than 16 bits of the record, and `ibm_mfm_read_sector` warns of it
  (`damWords_burst`).  What it misses are the clock bits of the third sync word, which
  no check looks at.

  The warnings are those of the checks: of `ibm_mfm_search`, of `mfm_check` and of
  `ibm_mfm_read_sector` itself.  Clock bits that go missing from the third sync word can
  leave more than six cells without flux, of which `floppy_read` warns in its own right.
-/
import FlashFloppyTestbed.CrcSerial
import FlashFloppyTestbed.Disk.Accept
import FlashFloppyTestbed.Disk.AmigaDamage

set_option autoImplicit false

namespace FlashFloppyTestbed

open FlashFloppyTestbed.Foundation FlashFloppyTestbed.Floppy

/-! ## Bursts in a record -/

/-- A bit of the decoded bytes is every other bitcell. -/
theorem getElem?_map_mfmtobin (ws : List (BitVec 16)) (b : Nat) :
    ((ws.map mfmtobin).flatMap bitsOf)[b]? = (ws.flatMap bitsOf)[2 * b + 1]? := by
  obtain ⟨q, i, hi, rfl⟩ : ∃ q i, i < 8 ∧ b = 8 * q + i :=
    ⟨b / 8, b % 8, Nat.mod_lt _ (by decide), (Nat.div_add_mod b 8).symm⟩
  rw [show 2 * (8 * q + i) + 1 = 16 * q + (2 * i + 1) by omega]
  by_cases hq : q < ws.length
  · have hq' : q < (ws.map mfmtobin).length := by rwa [List.length_map]
    rw [getElem?_blocks length_bitsOf hq' hi, getElem?_blocks length_bitsOf hq (by omega),
      List.getElem?_eq_getElem (by rwa [length_bitsOf]),
      List.getElem?_eq_getElem (by rw [length_bitsOf]; omega), getElem_bitsOf, getElem_bitsOf,
      List.getElem_map, mfmtobin_getMsbD _ hi]
  · rw [List.getElem?_eq_none, List.getElem?_eq_none]
    · rw [length_flatMap_bitsOf]
      omega
    · rw [length_flatMap_bitsOf, List.length_map]
      omega

/-- **Bursts show**: records of one length that differ in no more than 32 consecutive
bitcells hold the same data. -/
theorem damWords_burst {w w' : BitVec 16} {data data' : List Byte} (hw : mfmtobin w = 0xa1)
    (hw' : mfmtobin w' = 0xa1) (hlen : data.length = data'.length) {k : Nat}
    (h : ∀ i, i < k ∨ k + 32 ≤ i →
      ((damWords w data).flatMap bitsOf)[i]? = ((damWords w' data').flatMap bitsOf)[i]?) :
    data = data' := by
  have hbits : ∀ b, b < k / 2 ∨ k / 2 + 16 ≤ b →
      ((damRecord data).flatMap bitsOf)[b]? = ((damRecord data').flatMap bitsOf)[b]? := by
    intro b hb
    rw [← map_mfmtobin_damWords hw, ← map_mfmtobin_damWords hw', getElem?_map_mfmtobin,
      getElem?_map_mfmtobin]
    exact h _ (by omega)
  have hcrc : ∀ data, lfsr crcPoly 0xffff ((damRecord data).flatMap bitsOf) = 0 := fun data =>
    (crc16Ccitt_eq (damRecord data) 0xffff).symm.trans (crc16Ccitt_append_self _ _)
  have hrecord : damRecord data = damRecord data' := by
    by_contra hne
    have hlength : (damRecord data).length = (damRecord data').length := by
      rw [length_damRecord, length_damRecord, hlen]
    have hodd : crcPoly.getLsbD 0 = true := by decide
    refine lfsr_burst hodd ?_ (fun heq => hne ?_) hbits 0xffff ((hcrc data).trans (hcrc data').symm)
    · rw [length_flatMap_bitsOf, length_flatMap_bitsOf, hlength]
    · exact blocks_injective length_bitsOf (fun _ _ => bitsOf_injective) hlength heq
  rw [← take_drop_damRecord data, hrecord, hlen, take_drop_damRecord]

/-- The clock bits of the third word. -/
def ThirdClock (i : Nat) : Prop := 32 ≤ i ∧ i < 48 ∧ i % 2 = 0

instance (i : Nat) : Decidable (ThirdClock i) := inferInstanceAs (Decidable (_ ∧ _ ∧ _))

/-- What a third word that decodes to 0xa1 has of its own are its clock bits. -/
theorem damWords_thirdClock {w w' : BitVec 16} (h : mfmtobin w = mfmtobin w') (data : List Byte)
    {i : Nat} (hi : ¬ ThirdClock i) :
    ((damWords w data).flatMap bitsOf)[i]? = ((damWords w' data).flatMap bitsOf)[i]? := by
  by_cases hodd : i % 2 = 1
  · obtain ⟨b, rfl⟩ : ∃ b, i = 2 * b + 1 := ⟨i / 2, by omega⟩
    rw [← getElem?_map_mfmtobin, ← getElem?_map_mfmtobin, damWords, damWords]
    simp only [List.map_cons, h]
  · have hsync : ∀ w, (damWords w data).flatMap bitsOf = bitsOf syncWord ++ (bitsOf syncWord ++
        (bitsOf w ++ (mfmWords true ((damRecord data).drop 3)).flatMap bitsOf)) := fun w => rfl
    rw [hsync, hsync]
    rcases Nat.lt_or_ge i 32 with hlt | hge
    · simp only [List.getElem?_append, length_bitsOf]
      rw [if_pos (show i - 16 < 16 by omega), if_pos (show i - 16 < 16 by omega)]
    · have hbehind : 48 ≤ i := by
        by_contra hlt
        exact hi ⟨hge, by omega, by omega⟩
      simp only [List.getElem?_append, length_bitsOf]
      rw [if_neg (show ¬ i < 16 by omega), if_neg (show ¬ i - 16 < 16 by omega),
        if_neg (show ¬ i - 16 - 16 < 16 by omega), if_neg (show ¬ i < 16 by omega),
        if_neg (show ¬ i - 16 < 16 by omega), if_neg (show ¬ i - 16 - 16 < 16 by omega)]

/-- Words that differ from a record's in clock bits of the third are a record's too. -/
theorem eq_damWords_of_thirdClock {w : BitVec 16} {data : List Byte} {ws : List (BitVec 16)}
    (hlen : ws.length = data.length + 6)
    (h : ∀ i, ¬ ThirdClock i → (ws.flatMap bitsOf)[i]? = ((damWords w data).flatMap bitsOf)[i]?) :
    ∃ w', mfmtobin w' = mfmtobin w ∧ ws = damWords w' data := by
  obtain ⟨a, b, w', rest, rfl⟩ : ∃ a b w' rest, ws = a :: b :: w' :: rest := by
    match ws with
    | a :: b :: w' :: rest => exact ⟨a, b, w', rest, rfl⟩
    | [] | [_] | [_, _] => simp only [List.length_nil, List.length_cons] at hlen; omega
  have hdata : (a :: b :: w' :: rest).map mfmtobin = (damWords w data).map mfmtobin := by
    refine blocks_injective length_bitsOf (fun _ _ => bitsOf_injective) ?_
      (List.ext_getElem? fun i => ?_)
    · rw [List.length_map, List.length_map, hlen, length_damWords]
    · rw [getElem?_map_mfmtobin, getElem?_map_mfmtobin]
      refine h _ fun hclock => ?_
      have heven := hclock.2.2
      omega
  have hthird : mfmtobin w' = mfmtobin w :=
    (List.cons.inj (List.cons.inj (List.cons.inj hdata).2).2).1
  refine ⟨w', hthird, blocks_injective length_bitsOf (fun _ _ => bitsOf_injective) ?_
    (List.ext_getElem? fun i => ?_)⟩
  · rw [hlen, length_damWords]
  · by_cases hi : ThirdClock i
    · obtain ⟨hlo, hhi, -⟩ := hi
      have hcell : ∀ x y z (l : List (BitVec 16)), ((x :: y :: z :: l).flatMap bitsOf)[i]? =
          (bitsOf z)[i - 32]? := fun x y z l => by
        rw [List.flatMap_cons, List.flatMap_cons, List.flatMap_cons]
        simp only [List.getElem?_append, length_bitsOf]
        rw [if_neg (show ¬ i < 16 by omega), if_neg (show ¬ i - 16 < 16 by omega),
          if_pos (show i - 16 - 16 < 16 by omega), Nat.sub_sub]
      rw [damWords, hcell, hcell]
    · rw [h i hi, damWords_thirdClock hthird data hi]

/-! ## On the disk -/

namespace Disk

/-- The positions from `a` to `e` pass the same bitcells. -/
structure Agrees (d d' : Disk) (a e : Nat) : Prop where
  size_eq : d'.size = d.size
  cells_eq : ∀ x, a ≤ x → x < e → d'.cells (x % d.size) = d.cells (x % d.size)

/-- Bitcells are wrong at some of the positions from `a` to `e`, and nowhere else. -/
structure DamagedIn (d d' : Disk) (a e : Nat) : Prop where
  size_eq : d'.size = d.size
  cells_eq : ∀ r, (∀ x, a ≤ x → x < e → x % d.size ≠ r) → d'.cells r = d.cells r

variable {d d' : Disk} {a e : Nat}

/-- Within a revolution, the other positions pass what they did. -/
theorem DamagedIn.cell_eq (h : d.DamagedIn d' a e) {x y : Nat} (hle : x ≤ y) (hy : y < x + d.size)
    (ha : x ≤ a) (he : e ≤ x + d.size) (hout : y < a ∨ e ≤ y) :
    d'.cells (y % d.size) = d.cells (y % d.size) := by
  refine h.cells_eq _ fun z hlo hhi heq => ?_
  obtain ⟨i, rfl⟩ : ∃ i, y = x + i := ⟨y - x, by omega⟩
  obtain ⟨j, rfl⟩ : ∃ j, z = x + j := ⟨z - x, by omega⟩
  rcases Nat.lt_or_ge i j with hlt | hge
  · exact slot_ne hlt (by omega) heq.symm
  · exact slot_ne (show j < i by omega) (by omega) heq

theorem DamagedIn.agrees (h : d.DamagedIn d' a e) {x y : Nat} (hy : y ≤ a)
    (hrev : y ≤ x + d.size) (he : e ≤ x + d.size) : d.Agrees d' x y :=
  ⟨h.size_eq, fun _ hlo _ => h.cell_eq hlo (by omega) (by omega) he (.inl (by omega))⟩

theorem getElem?_stream (d : Disk) (t : Nat) {n i : Nat} (hi : i < n) :
    (d.stream t n)[i]? = some (d.cells ((t + i) % d.size)) := by
  have hlen : i < (d.stream t n).length := by rwa [length_stream]
  rw [List.getElem?_eq_getElem hlen]
  exact congrArg some (getElem_window _ _ _ _ _ _)

namespace Agrees

theorem mono (h : d.Agrees d' a e) {a' e' : Nat} (ha : a ≤ a') (he : e' ≤ e) :
    d.Agrees d' a' e' :=
  ⟨h.size_eq, fun x hlo hhi => h.cells_eq x (by omega) (by omega)⟩

theorem stream (h : d.Agrees d' a e) {x n : Nat} (ha : a ≤ x) (he : x + n ≤ e) :
    d'.stream x n = d.stream x n := by
  rw [Disk.stream, h.size_eq]
  exact window_congr fun i hi => h.cells_eq (x + i) (by omega) (by omega)

/-- A mark that is met is met on both. -/
theorem findSync (h : d.Agrees d' a e) {t o : Nat} (ha : a ≤ t) (hfind : d.findSync t = some o)
    (he : o + 32 ≤ e) : d'.findSync t = some o := by
  obtain ⟨hsync, hle, hfirst⟩ := of_find?_ring hfind
  have hsize : 0 < d.size := by
    by_contra hzero
    rw [Disk.findSync, Nat.eq_zero_of_not_pos hzero] at hfind
    cases hfind
  refine findSync_eq ?_ hle (fun o' hlo hhi => ?_) (by rw [h.size_eq]; exact hsize)
  · rw [SyncAt, h.stream (by omega) he]
    exact hsync
  · rw [SyncAt, h.stream (by omega) (by omega)]
    exact hfirst o' hlo hhi

theorem floppyRead (h : d.Agrees d' a e) {t n : Nat} {m : Mem} {p : Nat} {rd : Mem × Nat}
    (ha : a ≤ t) (hread : d.floppyRead m p n t = some rd) (hn : 2 ≤ n)
    (he : rd.2 + 16 * n ≤ e) : d'.floppyRead m p n t = some rd := by
  obtain ⟨o, hfind, rfl⟩ := Option.map_eq_some_iff.mp hread
  have hle := le_of_findSync hfind
  rw [Disk.floppyRead, h.findSync ha hfind (by omega), Option.map_some, h.stream (by omega) he]

end Agrees

end Disk

/-- What `ibm_mfm_search` ends at. -/
def IsHeader (m : Mem) (p : Nat) (idam : Idam) : Prop :=
  m.bytes p 4 = mfmIdamMark ∧ m.bytes (p + 4) 4 = idam.bytes ∧
    crc16Ccitt (m.bytes p 10) 0xffff = 0

theorem not_isHeader_iff {m : Mem} {p : Nat} {idam : Idam} :
    ¬ IsHeader m p idam ↔ m.bytes p 4 ≠ mfmIdamMark ∨ m.bytes (p + 4) 4 ≠ idam.bytes ∨
      crc16Ccitt (m.bytes p 10) 0xffff ≠ 0 := by
  rw [IsHeader, not_and_or, not_and_or]

/-- **A round of `ibm_mfm_search`**: it reads at the next mark, and either goes on behind
that or ends there. -/
theorem ibmMfmSearch_cases {d : Disk} {resume : Nat → Nat} {p : Nat} {idam : Idam} {t₀ fuel t : Nat}
    {m : Mem} {warned : Bool} {f : Found}
    (h : ibmMfmSearch d resume p idam t₀ (fuel + 1) t m warned = some f) :
    ∃ rd, d.floppyRead m p 10 t = some rd ∧ t ≤ rd.2 ∧
      ((¬ IsHeader (mfmToBin rd.1 p 10) p idam ∧
          ibmMfmSearch d resume p idam t₀ fuel (resume (rd.2 + 160)) (mfmToBin rd.1 p 10)
            (warned || decide (2 ≤ d.indexCount t₀ t)) = some f) ∨
        (IsHeader (mfmToBin rd.1 p 10) p idam ∧
          f = ⟨mfmToBin rd.1 p 10, rd.2 + 160, warned || decide (2 ≤ d.indexCount t₀ t)⟩)) := by
  rw [ibmMfmSearch] at h
  obtain ⟨rd, hread, h⟩ := Option.bind_eq_some_iff.mp h
  obtain ⟨o, hfind, rfl⟩ := Option.map_eq_some_iff.mp hread
  refine ⟨_, hread, Disk.le_of_findSync hfind, ?_⟩
  dsimp only at h
  split at h
  · rename_i hreject
    exact .inl ⟨not_isHeader_iff.mpr hreject, h⟩
  · rename_i haccept
    exact .inr ⟨not_not.mp (not_isHeader_iff.not.mpr haccept), (Option.some.inj h).symm⟩

/-- A search goes forward. -/
theorem ibmMfmSearch_le {d : Disk} {resume : Nat → Nat} (hresume : ∀ x, x ≤ resume x) {p : Nat}
    {idam : Idam} {t₀ : Nat} {f : Found} : ∀ (fuel t : Nat) (m : Mem) (warned : Bool),
    ibmMfmSearch d resume p idam t₀ fuel t m warned = some f → t + 160 ≤ f.endPos := by
  intro fuel
  induction fuel with
  | zero => exact fun _ _ _ h => by cases h
  | succ fuel ih =>
    intro t m warned h
    obtain ⟨rd, -, hle, ⟨-, hrest⟩ | ⟨-, rfl⟩⟩ := ibmMfmSearch_cases h
    · have hstep := hresume (rd.2 + 160)
      have hend := ih _ _ _ hrest
      omega
    · exact Nat.add_le_add_right hle 160

/-- It looks at nothing behind the header it finds. -/
theorem ibmMfmSearch_agrees {d d' : Disk} {resume : Nat → Nat} (hresume : ∀ x, x ≤ resume x)
    {p : Nat} {idam : Idam} {t₀ e : Nat} {f : Found} (he : f.endPos ≤ e) :
    ∀ (fuel t : Nat) (m : Mem) (warned : Bool), d.Agrees d' t e →
    ibmMfmSearch d resume p idam t₀ fuel t m warned = some f →
    ibmMfmSearch d' resume p idam t₀ fuel t m warned = some f := by
  intro fuel
  induction fuel with
  | zero => exact fun _ _ _ _ h => by cases h
  | succ fuel ih =>
    intro t m warned hagrees h
    have hcount : d'.indexCount t₀ t = d.indexCount t₀ t := by
      rw [Disk.indexCount, Disk.indexCount, hagrees.size_eq]
    obtain ⟨rd, hread, hle, ⟨hreject, hrest⟩ | ⟨haccept, rfl⟩⟩ := ibmMfmSearch_cases h
    · have hstep := hresume (rd.2 + 160)
      have hend := ibmMfmSearch_le hresume _ _ _ _ hrest
      rw [ibmMfmSearch, hagrees.floppyRead (Nat.le_refl t) hread (by decide) (by omega), hcount]
      exact (if_pos (not_isHeader_iff.mp hreject)).trans
        (ih _ _ _ (hagrees.mono (by omega) (Nat.le_refl e)) hrest)
    · rw [ibmMfmSearch, hagrees.floppyRead (Nat.le_refl t) hread (by decide) he, hcount]
      exact if_neg (not_isHeader_iff.not.mp (not_not.mpr haccept))

/-- **What the checks make of a burst** in a record. -/
theorem ibmMfmCheckDam_burst {d d' : Disk} {idam : Idam} {o : Nat} {w : BitVec 16}
    {data : List Byte} (hw : mfmtobin w = 0xa1) (hlen : data.length = idam.size)
    (hcells : d.stream o (16 * (4 + idam.size + 2)) = (damWords w data).flatMap bitsOf)
    (hsync : d'.SyncAt o) {k : Nat}
    (hburst : ∀ i, i < k ∨ k + 32 ≤ i → (d'.stream o (16 * (4 + idam.size + 2)))[i]? =
      (d.stream o (16 * (4 + idam.size + 2)))[i]?) (m : Mem) (p : Nat) :
    let c := ibmMfmCheckDam (d'.damBuffer m p idam o) p idam
    (c.warned = false ↔ ∀ i, ¬ ThirdClock i → (d'.stream o (16 * (4 + idam.size + 2)))[i]? =
      (d.stream o (16 * (4 + idam.size + 2)))[i]?) ∧ (c.warned = false → c.data = data) := by
  intro c
  have hclen : c.data.length = idam.size := Mem.length_bytes _ _ _
  obtain ⟨ws, hmark⟩ := Disk.words_damBuffer_mark hsync m p idam
  have haccepts : c.warned = false ↔ _ := ibmMfmCheckDam_accepts hmark
  -- an accepted record holds the same data
  have hsame : c.warned = false → ∃ w', mfmtobin w' = 0xa1 ∧ c.data = data ∧
      d'.stream o (16 * (4 + idam.size + 2)) = (damWords w' data).flatMap bitsOf := by
    intro hclean
    obtain ⟨w', hw', hwords⟩ := haccepts.mp hclean
    have hcells' := (Disk.stream_eq_damWords_iff d' m p o w' hclen).mpr hwords
    rw [hcells, hcells'] at hburst
    have hdata : c.data = data := damWords_burst hw' hw (hclen.trans hlen.symm) hburst
    exact ⟨w', hw', hdata, hdata ▸ hcells'⟩
  refine ⟨⟨fun hclean i hi => ?_, fun h => ?_⟩, fun hclean => ?_⟩
  · obtain ⟨w', hw', -, hcells'⟩ := hsame hclean
    rw [hcells, hcells', damWords_thirdClock (hw'.trans hw.symm) data hi]
  · rw [hcells, ← Disk.words_damBuffer d' m p] at h
    obtain ⟨w', hw', hwords⟩ := eq_damWords_of_thirdClock
      (by rw [Mem.length_words, hlen]; omega) h
    have hdata : c.data = data := ibmMfmCheckDam_data (hw'.trans hw) hlen hwords
    exact haccepts.mpr ⟨w', hw'.trans hw, hdata ▸ hwords⟩
  · obtain ⟨-, -, hdata, -⟩ := hsame hclean
    exact hdata

/-- **Bursts in a data field are detected**: where the checks of `ibm_mfm_read_sector` pass a
sector, and then a burst of up to 32 bitcells behind the mark of its data field goes wrong,
one of them warns, unless it is clock bits of the third sync word that are wrong.  The data
it returns without a warning of theirs are the sector's. -/
theorem ibm_sector_damage {d d' : Disk} {resume : Nat → Nat} (hresume : ∀ x, x ≤ resume x)
    {fuel : Nat} {m : Mem} {p₁ p₂ : Nat} {idam : Idam} {t o : Nat} {f : Found} {data : List Byte}
    (hsearch : ibmMfmSearch d resume p₁ idam t fuel t m false = some f)
    (hfind : d.findSync (resume f.endPos) = some o)
    (hread : ibmMfmReadSector d resume fuel m p₁ p₂ idam t = some ⟨data, false⟩)
    (hrev : o + 16 * (4 + idam.size + 2) ≤ t + d.size) {a b : Nat} (ha : o + 32 ≤ a)
    (hb : b ≤ o + 16 * (4 + idam.size + 2)) (hburst : b ≤ a + 32) (hdamage : d.DamagedIn d' a b) :
    ∃ r, ibmMfmReadSector d' resume fuel m p₁ p₂ idam t = some r ∧
      (r.warned = false ↔ ∀ x, a ≤ x → x < b → d'.cells (x % d.size) ≠ d.cells (x % d.size) →
        x < o + 48 ∧ (x - o) % 2 = 0) ∧
      (r.warned = false → r.data = data) := by
  obtain ⟨n, hn⟩ : ∃ n, n = 16 * (4 + idam.size + 2) := ⟨_, rfl⟩
  have hback := ibmMfmSearch_le hresume _ _ _ _ hsearch
  have hgo := hresume f.endPos
  have ho := Disk.le_of_findSync hfind
  -- the undamaged record
  obtain ⟨ws, hmark⟩ := Disk.words_damBuffer_mark (Disk.syncAt_of_findSync hfind) f.mem p₂ idam
  rw [ibmMfmReadSector_eq hsearch hfind] at hread
  obtain ⟨hdata, hclean⟩ := SectorRead.mk.inj (Option.some.inj hread)
  obtain ⟨hfwarned, hcwarned⟩ := Bool.or_eq_false_iff.mp hclean
  obtain ⟨w, hw, hwords⟩ := (ibmMfmCheckDam_accepts hmark).mp hcwarned
  rw [hdata] at hwords
  have hlen : data.length = idam.size := by
    rw [← hdata]
    exact Mem.length_bytes _ _ _
  have hcells := (Disk.stream_eq_damWords_iff d f.mem p₂ o w hlen).mpr hwords
  -- the read of the damaged disk finds the same header and mark
  have hagrees : d.Agrees d' t (o + 32) :=
    hdamage.agrees ha (by omega) (by omega)
  have hsearch' := ibmMfmSearch_agrees hresume (by omega) _ _ _ _ hagrees hsearch
  have hfind' := hagrees.findSync (by omega) hfind (Nat.le_refl _)
  -- its record is damaged by a burst
  have hcell : ∀ i, i < n → i < a - o ∨ b - o ≤ i →
      d'.cells ((o + i) % d.size) = d.cells ((o + i) % d.size) := fun i hi hout =>
    hdamage.cell_eq (x := o) (Nat.le_add_right o i) (by omega) (by omega) (by omega) (by omega)
  have hget : ∀ i, i < n → ((d'.stream o n)[i]? = (d.stream o n)[i]? ↔
      d'.cells ((o + i) % d.size) = d.cells ((o + i) % d.size)) := fun i hi => by
    rw [Disk.getElem?_stream d' o hi, Disk.getElem?_stream d o hi, hdamage.size_eq,
      Option.some_inj]
  have hout : ∀ i, n ≤ i → (d'.stream o n)[i]? = (d.stream o n)[i]? := fun i hi => by
    rw [List.getElem?_eq_none (by rwa [Disk.length_stream]),
      List.getElem?_eq_none (by rwa [Disk.length_stream])]
  obtain ⟨hexact, hsame⟩ := ibmMfmCheckDam_burst hw hlen hcells
    (Disk.syncAt_of_findSync hfind') (k := a - o) (fun i hi => by
      rw [← hn]
      rcases Nat.lt_or_ge i n with hlt | hge
      · exact (hget i hlt).mpr (hcell i hlt (by omega))
      · exact hout i hge) f.mem p₂
  refine ⟨_, ibmMfmReadSector_eq hsearch' hfind', ?_, ?_⟩
  · show (f.warned || _) = false ↔ _
    rw [hfwarned, Bool.false_or, hexact, ← hn]
    constructor
    · intro h x hlo hhi hchanged
      by_contra hnot
      refine hchanged ?_
      obtain ⟨i, rfl⟩ : ∃ i, x = o + i := ⟨x - o, by omega⟩
      refine (hget i (by omega)).mp (h i fun hclock => hnot ⟨?_, ?_⟩)
      · exact Nat.add_lt_add_left hclock.2.1 o
      · rw [Nat.add_sub_cancel_left]
        exact hclock.2.2
    · intro h i hi
      rcases Nat.lt_or_ge i n with hlt | hge
      · refine (hget i hlt).mpr ?_
        by_contra hchanged
        have hin : ¬ (i < a - o ∨ b - o ≤ i) := fun hout => hchanged (hcell i hlt hout)
        obtain ⟨hthird, hclock⟩ := h (o + i) (by omega) (by omega) hchanged
        exact hi ⟨by omega, by omega, by omega⟩
      · exact hout i hge
  · show (f.warned || _) = false → _
    rw [hfwarned, Bool.false_or]
    exact hsame

/-- One wrong bitcell. -/
theorem damagedIn_invert (d : Disk) (a : Nat) :
    d.DamagedIn (d.invert (a % d.size)) a (a + 1) where
  size_eq := rfl
  cells_eq r h := by
    have hne : r ≠ a % d.size := fun heq => h a (Nat.le_refl a) (Nat.lt_succ_self a) heq.symm
    show (d.cells r ^^ decide (r = a % d.size)) = d.cells r
    rw [decide_eq_false hne, Bool.xor_false]

theorem cells_invert_self (d : Disk) (x : Nat) : (d.invert x).cells x = !d.cells x := by
  show (d.cells x ^^ decide (x = x)) = !d.cells x
  rw [decide_eq_true rfl, Bool.xor_true]

/-- A wrong bitcell in the data of a sector. -/
theorem ibm_sector_damage_one_cell :
    let d := damDisk oneSector syncWord (List.replicate 128 0x00)
    ∃ r, ibmMfmReadSector (d.invert (260 % d.size)) (fun x => x) 1 (fun _ => 0) 0 0 oneSector 0 =
      some r ∧ r.warned = true := by
  intro d
  have hsize : d.size = 2304 := by
    rw [size_damDisk, List.length_replicate]
  obtain ⟨m', hfound⟩ := ibmMfmSearch_damDisk oneSector syncWord (List.replicate 128 0x00)
    (fun _ => 0) 0
  have hfind : d.findSync 160 = some 160 := findSync_damDisk_dam _ _ _
  -- the header is the first one, so that it does not matter when the search goes on
  have hsearch : ibmMfmSearch d (fun x => x) 0 oneSector 0 1 0 (fun _ => 0) false =
      some ⟨m', 160, false⟩ := hfound
  have hread : ibmMfmReadSector d (fun x => x) 1 (fun _ => 0) 0 0 oneSector 0 =
      some ⟨List.replicate 128 0x00, false⟩ := by
    have hdam := ibmMfmReadSector_damDisk (w := syncWord) (by decide) length_oneSector
      (fun _ => 0) 0 0
    rw [ibmMfmReadSector_eq hfound hfind] at hdam
    rw [ibmMfmReadSector_eq hsearch hfind]
    exact hdam
  obtain ⟨r, hr, hexact, -⟩ := ibm_sector_damage (fun x => Nat.le_refl x) hsearch hfind hread
    (show 160 + 16 * (4 + oneSector.size + 2) ≤ 0 + d.size by rw [hsize]; decide)
    (show 160 + 32 ≤ 260 by decide) (show 261 ≤ 160 + 16 * (4 + oneSector.size + 2) by decide)
    (by decide) (damagedIn_invert d 260)
  refine ⟨r, hr, ?_⟩
  by_contra hclean
  have hwrong : (d.invert (260 % d.size)).cells (260 % d.size) ≠ d.cells (260 % d.size) := by
    rw [cells_invert_self]
    exact Bool.not_ne_self _
  have hthird := (hexact.mp (Bool.eq_false_of_not_eq_true hclean)) 260 (Nat.le_refl _)
    (Nat.lt_succ_self _) hwrong
  exact absurd hthird.1 (by decide)

end FlashFloppyTestbed
