/-
  Disk/Search.lean --- `ibm_mfm_search` and `ibm_mfm_read_sector` on a formatted
  revolution.

  A search takes the marks as they come, and rejects every one in front of the
  header it is for: data fields, second sync words and the headers of the other
  sectors (`Formatted.search_reject`).  It therefore ends at the first header it
  is for at or behind its start, within the first revolution
  (`Formatted.ibmMfmSearch_spec`), and the data field behind that header is the
  next thing to be read (`Formatted.ibmMfmReadSector_spec`).
-/
import FlashFloppyTestbed.Disk.Scan

set_option autoImplicit false

namespace FlashFloppyTestbed

open FlashFloppyTestbed.Foundation FlashFloppyTestbed.Floppy

/-- Headers that differ have different bytes. -/
theorem Idam.bytes_injective {i j : Idam} (h : i.bytes = j.bytes) : i = j := by
  cases i
  cases j
  simpa [Idam.bytes] using h

namespace Disk.Formatted

variable {d : Disk} {gap3 : Nat} {fs : List Byte} {pre post : List Sector} {s : Sector}

/-- The marks in front of the first sync word of another one are at least a header
away. -/
theorem apart_of_lt (h : d.Formatted gap3 (pre ++ s :: post) fs) {o o' : Nat} (hsync : d.SyncAt o)
    (ho : o' % d.size = 16 * (64 + sectorsLength gap3 pre + 12)) (hlt : o < o') :
    o + 160 ≤ o' := by
  by_contra hnear
  have hidam := idamOff_mem gap3 pre post s
  obtain ⟨off, hoff, hmod⟩ := (h.syncAt_iff o).mp hsync
  have hroom := h.mark_room hoff
  have hapart := markOffs_apart h.long hidam hoff
  have hstep := mod_of_le d.size (Nat.le_of_lt hlt) (by omega)
  omega

/-- **What a search rejects**: a mark in front of the header it is for. -/
theorem search_reject (h : d.Formatted gap3 (pre ++ s :: post) fs)
    (hother : ∀ s' ∈ pre ++ post, s'.idam ≠ s.idam) {t o : Nat} (m : Mem) (p : Nat)
    (hfind : d.findSync t = some o) (hsync : d.SyncAt o)
    (ho : o % d.size ≠ 16 * (64 + sectorsLength gap3 pre + 12)) :
    ∃ m', d.floppyRead m p 10 t = some (m', o) ∧
      ((mfmToBin m' p 10).bytes p 4 ≠ mfmIdamMark ∨
        (mfmToBin m' p 10).bytes (p + 4) 4 ≠ s.idam.bytes) := by
  obtain ⟨off, hoff, hfirst | hsecond⟩ := (h.syncAt_iff o).mp hsync
  · obtain ⟨pre', s', post', heq, hhead | hdata⟩ := (mem_markOffs _ _).mp hoff
    · -- the header of another sector
      have hne : s'.idam ≠ s.idam := by
        have hpos : pre'.length ≠ pre.length := by
          intro hlen
          obtain ⟨rfl, _⟩ := List.append_inj heq hlen.symm
          exact ho (by rw [hfirst, hhead])
        have hget : (pre ++ s :: post)[pre'.length]? = some s' := by
          rw [heq, List.getElem?_append_right (Nat.le_refl _), Nat.sub_self]
          rfl
        refine hother s' ?_
        rcases Nat.lt_or_gt_of_ne hpos with hlt | hgt
        · rw [List.getElem?_append_left hlt] at hget
          exact List.mem_append_left _ (List.mem_of_getElem? hget)
        · obtain ⟨k, hk⟩ : ∃ k, pre'.length - pre.length = k + 1 :=
            ⟨pre'.length - pre.length - 1, by omega⟩
          rw [List.getElem?_append_right (Nat.le_of_lt hgt), hk, List.getElem?_cons_succ] at hget
          exact List.mem_append_right _ (List.mem_of_getElem? hget)
      rw [heq] at h
      obtain ⟨m', hread, -, hbytes, -⟩ := h.read_header m p hfind (by rw [hfirst, hhead])
      refine ⟨m', hread, .inr ?_⟩
      rw [hbytes]
      exact fun hsame => hne (Idam.bytes_injective hsame)
    · rw [heq] at h
      obtain ⟨m', hread, hmark⟩ := h.read_dam m p hfind (by rw [hfirst, hdata])
      exact ⟨m', hread, .inl hmark⟩
  · obtain ⟨m', hread, hmark⟩ := h.read_second m p hfind hoff hsecond
    exact ⟨m', hread, .inl hmark⟩

/-- **The loop of `ibm_mfm_search`** ends at the first header it is for, which lies
within a revolution of its start. -/
theorem ibmMfmSearch_spec (h : d.Formatted gap3 (pre ++ s :: post) fs)
    (hother : ∀ s' ∈ pre ++ post, s'.idam ≠ s.idam) {resume : Nat → Nat}
    (hresume : d.Timely 10 resume) (p : Nat) {t₀ o : Nat} (hnear : o < t₀ + d.size)
    (ho : o % d.size = 16 * (64 + sectorsLength gap3 pre + 12)) :
    ∀ (fuel t : Nat) (m : Mem), t₀ ≤ t → t ≤ o → o < t + fuel →
      ∃ m', ibmMfmSearch d resume p s.idam t₀ fuel t m false = some ⟨m', o + 160, false⟩ := by
  have hsync : d.SyncAt o := (h.syncAt_iff o).mpr
    ⟨_, idamOff_mem gap3 pre post s, .inl ho⟩
  refine Disk.search_rule (by decide) hresume hsync
    (fun o' hsync' hlt => h.apart_of_lt hsync' ho hlt) h.size_pos
    (fun fuel t m ht₀ hle hfind => ?_) fun fuel t m o' ht₀ hle hfind hsync' hlt ih => ?_
  · obtain ⟨m', hread, hmark, hbytes, hcrc⟩ := h.read_header m p hfind ho
    refine ⟨mfmToBin m' p 10, ?_⟩
    rw [ibmMfmSearch, Disk.not_two_indexes hle hnear, hread]
    refine if_neg ?_
    rintro (hne | hne | hne)
    · exact hne hmark
    · exact hne hbytes
    · exact hne hcrc
  · have hne : o' % d.size ≠ 16 * (64 + sectorsLength gap3 pre + 12) := by
      intro hmod
      have hle' := Disk.le_of_findSync hfind
      have hstep := mod_of_le d.size (Nat.le_of_lt hlt) (by omega)
      omega
    obtain ⟨m', hread, hreject⟩ := h.search_reject hother m p hfind hsync' hne
    obtain ⟨m'', hrest⟩ := ih (mfmToBin m' p 10)
    refine ⟨m'', ?_⟩
    rw [ibmMfmSearch, Disk.not_two_indexes hle hnear, hread]
    exact (if_pos (hreject.imp id .inl)).trans hrest

/-- The bytes and the words of a data field that is read whole. -/
theorem read_damRecord (h : d.Formatted gap3 (pre ++ s :: post) fs) {t o : Nat} (m : Mem) (p : Nat)
    (hfind : d.findSync t = some o) (ho : o % d.size = 16 * (64 + sectorsLength gap3 pre + 56)) :
    ∃ m', d.floppyRead m p (4 + s.idam.size + 2) t = some (m', o) ∧
      (mfmToBin m' p (4 + s.idam.size + 2)).bytes p (4 + s.idam.size + 2) = damRecord s.data ∧
      mfmCheck m' (p + 6) (4 + s.idam.size + 2 - 3) = [] := by
  have hsize : s.data.length = s.idam.size := h.data s (by simp)
  have hlen : 4 + s.idam.size + 2 = (damRecord s.data).length := by
    rw [length_damRecord]
    omega
  obtain ⟨rest, hdrop⟩ := drop_damRecord gap3 pre post s
  obtain ⟨m', hread, hbytes, hwords⟩ := h.floppyRead_mark m p hfind ho hdrop (by simp) rfl
    (Nat.le_of_eq hlen)
  refine ⟨m', hread, ?_, mfmCheck_eq_nil (l := (damRecord s.data).drop 3) ?_⟩
  · rw [hbytes, hlen, List.take_length]
  · have hall := hwords hlen
    rw [show 4 + s.idam.size + 2 = 4 + s.idam.size + 2 - 3 + 1 + 1 + 1 by omega, Mem.words_succ,
      Mem.words_succ, Mem.words_succ] at hall
    obtain ⟨-, hall⟩ := List.cons.inj hall
    obtain ⟨-, hall⟩ := List.cons.inj hall
    obtain ⟨hsync, hdata⟩ := List.cons.inj hall
    -- the sync word is taken for one that ends in a clear bit, but 0xfb has no clock bit
    have hbit : (m'.ld16 (p + 6 - 2)).getLsbD 0 = false := by
      rw [Mem.ld16_lsb, show p + 6 - 2 = p + 2 + 2 by omega, hsync]
      decide
    rw [hbit]
    refine hdata.trans ?_
    show mfmWord true 0xfb :: _ = mfmWord false 0xfb :: _
    rw [mfmWord_of_msb (by decide) true false]

/-- **`ibm_mfm_read_sector`** returns the data of the sector it is for, and warns of
nothing, wherever it is started. -/
theorem ibmMfmReadSector_spec (h : d.Formatted gap3 (pre ++ s :: post) fs)
    (hother : ∀ s' ∈ pre ++ post, s'.idam ≠ s.idam) {resume : Nat → Nat}
    (hresume : d.Timely 10 resume) {fuel : Nat} (hfuel : d.size ≤ fuel) (m : Mem) (p₁ p₂ t : Nat) :
    ibmMfmReadSector d resume fuel m p₁ p₂ s.idam t = some ⟨s.data, false⟩ := by
  have hidam := idamOff_mem gap3 pre post s
  have hroom := h.mark_room hidam
  have hdam := damOff_mem gap3 pre post s
  have hroom' := h.mark_room hdam
  -- the header
  obtain ⟨o, hlo, hhi, ho⟩ := exists_next
    (show 16 * (64 + sectorsLength gap3 pre + 12) < d.size by omega) t
  have hsync : d.SyncAt o := (h.syncAt_iff o).mpr ⟨_, hidam, .inl ho⟩
  obtain ⟨m₁, hsearch⟩ := h.ibmMfmSearch_spec hother hresume p₁ hhi ho fuel t m
    (Nat.le_refl t) hlo (by omega)
  -- the data field behind it
  have ho' : (o + 704) % d.size = 16 * (64 + sectorsLength gap3 pre + 56) := by
    rw [Nat.add_mod, ho, Nat.mod_eq_of_lt (a := 704) (by omega), Nat.mod_eq_of_lt (by omega)]
    omega
  have hsync' : d.SyncAt (o + 704) := (h.syncAt_iff _).mpr ⟨_, hdam, .inl ho'⟩
  have hge : o + 160 ≤ resume (o + 160) := (hresume o hsync).1
  have hle : resume (o + 160) ≤ o + 704 := Disk.resume_le hresume hsync hsync' (by omega)
  have hfind := Disk.findSync_eq hsync' hle
    (fun _ hlo hhi => h.not_syncAt_gap2 ho (by omega) hhi) h.size_pos
  obtain ⟨m₂, hread, hbytes, hcheck⟩ := h.read_damRecord m₁ p₂ hfind ho'
  have hsize : s.data.length = s.idam.size := h.data s (by simp)
  have hsub := fun i k hk => Mem.bytes_sub (mfmToBin m₂ p₂ (4 + s.idam.size + 2)) p₂
    (4 + s.idam.size + 2) i k hk
  rw [hbytes] at hsub
  have hmark : (mfmToBin m₂ p₂ (4 + s.idam.size + 2)).bytes p₂ 3 = mfmIdamMark.take 3 :=
    hsub 0 3 (by omega)
  have hdata : (mfmToBin m₂ p₂ (4 + s.idam.size + 2)).bytes (p₂ + 4) s.idam.size = s.data := by
    rw [hsub 4 s.idam.size (by omega), ← hsize]
    exact List.take_left' rfl
  have hfb : mfmToBin m₂ p₂ (4 + s.idam.size + 2) (p₂ + 3) = 0xfb := by
    have hone := hsub 3 1 (by omega)
    rw [Mem.bytes_succ] at hone
    exact (List.cons.inj hone).1
  have hcrc : crc16Ccitt (damRecord s.data) 0xffff = 0 := crc16Ccitt_append_self _ _
  rw [ibmMfmReadSector, hsearch]
  simp only [Option.bind_some, hread, Option.map_some, hcheck, hmark, hdata, hfb, hbytes, hcrc]
  rfl

end Disk.Formatted

end FlashFloppyTestbed
