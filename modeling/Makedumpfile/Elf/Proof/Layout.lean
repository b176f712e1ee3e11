import Makedumpfile.Elf.Header
import Makedumpfile.Elf.Proof.Data

/-!
# The areas of an ELF dump file are disjoint

The place of each area is the position of a cache: the headers written are counted by
`phdrSize` (`Grows`), the eraseinfo note by its parts (`writeElfEraseinfo_pos`). The reserved place is
large enough exactly under the conditions of `areas_iff`: the number of headers fits the count, the
padding behind the notes is no longer than that behind the text, and the text is no longer than its
estimate allows.
-/

namespace Elf

open Lib Output Erase

variable {c : Info}

/-! ## The positions of the caches -/

/-- The header cache has moved by the headers written, the page cache not back. -/
structure Grows (c : Info) (w w' : Writer) : Prop where
  header : w'.cdHeader.pos + phdrSize c * w.written.length =
    w.cdHeader.pos + phdrSize c * w'.written.length
  page : w.cdPage.pos ≤ w'.cdPage.pos

theorem Grows.refl (w : Writer) : Grows c w w := ⟨rfl, Nat.le_refl _⟩

theorem Grows.trans {w w1 w2 : Writer} (h1 : Grows c w w1) (h2 : Grows c w1 w2) : Grows c w w2 := by
  obtain ⟨e1, p1⟩ := h1
  obtain ⟨e2, p2⟩ := h2
  exact ⟨by omega, by omega⟩

theorem copyPages_pos {paddr off size : Nat} {w w' : Writer}
    (h : copyPages c paddr off size w = some w') :
    w'.cdPage.pos = w.cdPage.pos + size ∧ w'.cdHeader = w.cdHeader := by
  induction size using Nat.strongRecOn generalizing paddr off w with
  | ind size ih =>
    rw [copyPages] at h
    split at h
    · rename_i hz
      cases h
      exact ⟨by omega, rfl⟩
    · dsimp only at h
      split at h
      · cases h
      · rename_i hlen
        split at h
        · cases h
        · rename_i cd out hc
          have hp := c.pageSize_pos
          obtain ⟨h1, h2⟩ := ih (size - c.pageSize) (by omega) h
          have hk := (filterDataBuffer_keeps (p := paddr) (s := w.filter) (not_not.1 hlen)).1
          have hw := (writeCache_pos hc).1
          rw [hk] at hw
          refine ⟨?_, h2⟩
          rw [h1]
          show cd.pos + _ = _
          omega

theorem writeSegment_pos {i off : Nat} {load : Phdr} {w w' : Writer}
    (h : writeSegment c i off load w = some w') :
    w'.cdHeader.pos = w.cdHeader.pos + phdrSize c ∧
      w'.cdPage.pos = w.cdPage.pos + load.pFilesz := by
  obtain ⟨w1, h1, h2⟩ := Option.bind_eq_some_iff.1 h
  have hh : w1.cdHeader.pos = w.cdHeader.pos + phdrSize c ∧ w1.cdPage = w.cdPage := by
    unfold writeElfPhdr at h1
    split at h1
    · cases h1
    · rename_i cd out hc
      cases h1
      refine ⟨?_, rfl⟩
      rw [(writeCache_pos hc).1, length_phdrBytes]
  rw [← hh.1, ← hh.2]
  split at h2
  · rename_i hz
    cases h2
    exact ⟨rfl, by rw [hz, Nat.add_zero]⟩
  · unfold writeElfLoadSegment at h2
    dsimp only at h2
    split at h2
    · cases h2
    · obtain ⟨hp, hc⟩ := copyPages_pos h2
      exact ⟨by rw [hc], hp⟩

theorem writeSegment_grows {i off : Nat} {load : Phdr} {w w' : Writer}
    (h : writeSegment c i off load w = some w') : Grows c w w' := by
  obtain ⟨h1, h2⟩ := writeSegment_pos h
  refine ⟨?_, by omega⟩
  rw [writeSegment_written h, List.length_append, List.length_singleton, Nat.mul_add, h1]
  omega

theorem sizeInLoad_pos (orig : Phdr) (p : Nat) : 0 < sizeInLoad c orig p := by
  have := c.pageSize_pos
  unfold sizeInLoad
  split <;> omega

/-- The data of a walk: what is written and what the open segment has. -/
def dataSize (s : Writer × Seg) : Nat := s.1.cdPage.pos + s.2.filesz

theorem writePage_grows {i p : Nat} {orig : Phdr} {s s' : Writer × Seg}
    (h : writePage c i orig s p = some s') :
    Grows c s.1 s'.1 ∧ dataSize s ≤ dataSize s' ∧
      (c.dumpable p = true → dataSize s < dataSize s') := by
  obtain ⟨w, g⟩ := s
  obtain ⟨w', g'⟩ := s'
  have hs := sizeInLoad_pos (c := c) orig p
  have hp := c.pageSize_pos
  obtain ⟨hd, rfl, rfl⟩ | ⟨hd, -, rfl, rfl⟩ | ⟨hd, -, w1, h1, rfl, rfl⟩ := writePage_cases h
  · exact ⟨.refl _, Nat.le_refl _, fun hc => absurd hc (by simp [hd])⟩
  · refine ⟨.refl _, ?_, fun _ => ?_⟩ <;> simp only [dataSize] <;> omega
  · have hpos : w1.cdPage.pos = w.cdPage.pos + g.filesz := (writeSegment_pos h1).2
    have hgrow := writeSegment_grows h1
    refine ⟨⟨hgrow.header, hgrow.page⟩, ?_, fun _ => ?_⟩ <;>
      simp only [dataSize, nextSeg, hpos] <;> omega

theorem foldlM_writePage_grows {i : Nat} {orig : Phdr} : ∀ {l : List Nat} {s s' : Writer × Seg},
    l.foldlM (writePage c i orig) s = some s' →
    Grows c s.1 s'.1 ∧ dataSize s ≤ dataSize s' ∧
      ((∃ p ∈ l, c.dumpable p = true) → dataSize s < dataSize s')
  | [], _, _, h => by
    cases h
    exact ⟨.refl _, Nat.le_refl _, by simp⟩
  | p :: l, s, s', h => by
    rw [List.foldlM_cons] at h
    obtain ⟨s1, h1, h2⟩ := Option.bind_eq_some_iff.1 h
    obtain ⟨g1, d1, e1⟩ := writePage_grows h1
    obtain ⟨g2, d2, e2⟩ := foldlM_writePage_grows h2
    refine ⟨g1.trans g2, Nat.le_trans d1 d2, ?_⟩
    rintro ⟨q, hq, hd⟩
    rcases List.mem_cons.1 hq with rfl | hq
    · exact Nat.lt_of_lt_of_le (e1 hd) d2
    · exact Nat.lt_of_le_of_lt d1 (e2 ⟨q, hq, hd⟩)

/-- A PT_LOAD that the writer walks over. -/
def Walked (p : Phdr) : Prop := p.pType = ptLoad ∧ p.pPaddr ≠ notPaddr

theorem writeLoad_grows {w w' : Writer} {p : Phdr} {i : Nat} (h : writeLoad c w (p, i) = some w') :
    Grows c w w' ∧
      (Walked p → (∃ q ∈ walk c p, c.dumpable q = true) → w.cdPage.pos < w'.cdPage.pos) := by
  unfold writeLoad at h
  split at h
  · rename_i hs
    cases h
    refine ⟨.refl _, fun hw => ?_⟩
    rcases hs with hs | hs
    · exact absurd hw.1 hs
    · exact absurd hs hw.2
  · obtain ⟨⟨w1, g⟩, h1, h2⟩ := Option.bind_eq_some_iff.1 h
    rw [walkLoad_eq] at h1
    obtain ⟨g1, d1, e1⟩ := foldlM_writePage_grows h1
    obtain ⟨w2, h3, rfl⟩ := Option.map_eq_some_iff.1 h2
    have hpos : w2.cdPage.pos = w1.cdPage.pos + g.filesz := (writeSegment_pos h3).2
    have hgrow := g1.trans (writeSegment_grows h3)
    refine ⟨⟨hgrow.header, hgrow.page⟩, fun _ hd => ?_⟩
    have := e1 hd
    simp only [dataSize] at this ⊢
    omega

theorem foldlM_writeLoad_grows : ∀ {l : List Phdr} {k : Nat} {w w' : Writer},
    (l.zipIdx k).foldlM (writeLoad c) w = some w' →
    Grows c w w' ∧ ((∃ p ∈ l, Walked p ∧ ∃ q ∈ walk c p, c.dumpable q = true) →
      w.cdPage.pos < w'.cdPage.pos)
  | [], _, _, _, h => by
    cases h
    exact ⟨.refl _, by simp⟩
  | p :: l, k, w, w', h => by
    rw [List.zipIdx_cons, List.foldlM_cons] at h
    obtain ⟨w1, h1, h2⟩ := Option.bind_eq_some_iff.1 h
    obtain ⟨g1, e1⟩ := writeLoad_grows h1
    obtain ⟨g2, e2⟩ := foldlM_writeLoad_grows h2
    refine ⟨g1.trans g2, ?_⟩
    rintro ⟨q, hq, hw, hd⟩
    rcases List.mem_cons.1 hq with rfl | hq
    · exact Nat.lt_of_lt_of_le (e1 hw hd) g2.page
    · exact Nat.lt_of_le_of_lt g1.page (e2 ⟨q, hq, hw, hd⟩)

theorem flushWriter_pos {w w' : Writer} (h : flushWriter c w = some w') :
    w'.cdHeader.offset = w.cdHeader.pos ∧ w'.cdHeader.buf = [] ∧
      w'.cdPage.offset = w.cdPage.pos := by
  unfold flushWriter at h
  split at h
  · cases h
  · rename_i cdh o1 h1
    obtain ⟨p1, b1, -⟩ := writeCacheBufsz_pos h1
    split at h
    · cases h
    · rename_i cdp o2 h2
      obtain ⟨p2, b2, -⟩ := writeCacheBufsz_pos h2
      cases h
      rw [← p1, ← p2]
      simp [CacheData.pos, b1, b2]

/-- **The pages**: where the header cache and the page cache end. -/
theorem writeElfPagesCyclic_pos {off : Nat} {w w' : Writer} (hb : w.cdPage.buf = [])
    (h0 : w.written = []) (h : writeElfPagesCyclic c off w = some w') :
    w'.cdHeader.offset = w.cdHeader.pos + phdrSize c * w'.written.length ∧
      w'.cdHeader.buf = [] ∧ off ≤ w'.cdPage.offset ∧
      ((∃ p ∈ c.phdrs, Walked p ∧ ∃ q ∈ walk c p, c.dumpable q = true) →
        off < w'.cdPage.offset) := by
  obtain ⟨w1, h1, h2⟩ := Option.bind_eq_some_iff.1 h
  obtain ⟨⟨hh, hp⟩, hs⟩ := foldlM_writeLoad_grows h1
  obtain ⟨e1, e2, e3⟩ := flushWriter_pos h2
  have hw := flushWriter_written h2
  simp only [CacheData.pos, hb, h0, List.length_nil, Nat.add_zero, Nat.mul_zero] at hh hp hs
  refine ⟨?_, e2, ?_, fun hd => ?_⟩
  · rw [e1, hw]
    exact hh
  · rw [e3]
    exact hp
  · rw [e3]
    exact hs hd

/-! ## The header -/

theorem put_out {off : Nat} {b : List UInt8} {w w' : Writer} (h : put c off b w = some w') :
    w' = { w with out := w'.out } := by
  unfold put at h
  split at h
  · cases h
  · cases h
    rfl

theorem reserveLoop_out {off stop : Nat} {w w' : Writer} (h : reserveLoop c off stop w = some w') :
    w' = { w with out := w'.out } := by
  generalize hn : stop - off = n
  induction n using Nat.strongRecOn generalizing off w with
  | ind n ih =>
    rw [reserveLoop] at h
    split at h
    · have hp := c.pageSize_pos
      obtain ⟨w1, h1, h2⟩ := Option.bind_eq_some_iff.1 h
      rw [ih _ (by omega) h2 rfl, put_out h1]
    · cases h
      rfl

theorem reserveDiskspace_out {start stop : Nat} {w w' : Writer}
    (h : reserveDiskspace c start stop w = some w') : w' = { w with out := w'.out } := by
  unfold reserveDiskspace at h
  split at h
  · cases h
    rfl
  · exact reserveLoop_out h

/-- What `write_elf_header` did when it succeeded. -/
structure HeaderSpec (c : Info) (l : Layout) (sizeEraseinfo : Nat) (w : Writer) (h : Header)
    (w' : Writer) (sizeNote : Nat) : Prop where
  mem : ∃ m, noteMemory c = some m ∧ m.pFilesz = sizeNote
  starts : (ehdrSize c : Int) < l.phdrEnd
  offsetNote : h.offsetNoteDumpfile = offsetNote l
  pOffset : h.note.pOffset = h.offsetNoteDumpfile
  pFilesz : h.note.pFilesz = noteFilesz sizeNote sizeEraseinfo
  offsetLoad : h.offsetLoadDumpfile = h.offsetNoteDumpfile + h.note.pFilesz
  size : h.sizeElfEraseinfo = sizeEraseinfo
  header : w'.cdHeader.pos = ehdrSize c + phdrSize c
  page : w'.cdPage = w.cdPage
  written : w'.written = w.written

theorem writeElfHeaderAt_spec {l : Layout} {sizeEraseinfo : Nat} {w w' : Writer} {h : Header}
    (hb : w.cdHeader.buf = []) (hw : writeElfHeaderAt c l sizeEraseinfo w = some (h, w')) :
    ∃ sizeNote, HeaderSpec c l sizeEraseinfo w h w' sizeNote := by
  obtain ⟨m, hm, hw⟩ := Option.bind_eq_some_iff.1 hw
  split at hw
  · cases hw
  rename_i hstart
  obtain ⟨w1, h1, hw⟩ := Option.bind_eq_some_iff.1 hw
  obtain ⟨w2, h2, hw⟩ := Option.bind_eq_some_iff.1 hw
  have e2 : w2 = { w1 with out := w2.out } := by
    unfold writeShdr at h2
    split at h2
    · cases h2
      rfl
    · exact put_out h2
  split at hw
  · cases hw
  rename_i cd out hc
  obtain ⟨w3, h3, hw⟩ := Option.bind_eq_some_iff.1 hw
  dsimp only at hw
  split at hw
  · cases hw
  obtain ⟨w4, h4, hw⟩ := Option.map_eq_some_iff.1 hw
  cases hw
  have hpos : cd.pos = ehdrSize c + phdrSize c := by
    rw [(writeCache_pos hc).1, length_phdrBytes, e2, reserveDiskspace_out h1]
    simp [CacheData.pos, hb]
  refine ⟨m.pFilesz, ⟨m, hm, rfl⟩, by omega, rfl, rfl, rfl, rfl, rfl, ?_, ?_, ?_⟩
  all_goals rw [put_out h4, put_out h3]
  · exact hpos
  · rw [e2, reserveDiskspace_out h1]
  · rw [e2, reserveDiskspace_out h1]

/-! ## The eraseinfo note -/

theorem foldlM_writeLine_pos {o : Opts} : ∀ {lines : List String} {s s' : CacheData × Out},
    lines.foldlM (writeLine o) s = some s' → s'.1.pos = s.1.pos + textSize lines
  | [], _, _, h => by
    cases h
    rfl
  | line :: lines, s, s', h => by
    rw [List.foldlM_cons] at h
    obtain ⟨s1, h1, h2⟩ := Option.bind_eq_some_iff.1 h
    have hp : s1.1.pos = s.1.pos + line.utf8ByteSize := by
      unfold writeLine at h1
      split at h1
      · cases h1
      · rename_i r hc
        cases h1
        rw [(writeCache_pos hc).1, length_strBytes]
    rw [foldlM_writeLine_pos h2, hp, textSize, textSize, List.map_cons, List.sum_cons,
      Nat.add_assoc]

theorem writeEraseinfo_pos {o : Opts} {size : String} {table : List EraseInfo} {cd cd' : CacheData}
    {out out' : Out} {n : Nat} (h : writeEraseinfo o size table cd out = some (n, cd', out')) :
    n = textSize (eraseLines size table) ∧ cd'.pos = cd.pos + n ∧ cd'.buf = [] := by
  obtain ⟨s, h1, h2⟩ := Option.bind_eq_some_iff.1 h
  split at h2
  · cases h2
  · rename_i hc
    obtain ⟨hp, hb, -⟩ := writeCacheBufsz_pos hc
    cases h2
    exact ⟨rfl, by rw [hp, foldlM_writeLine_pos h1], hb⟩

theorem length_eraseinfoNoteName : eraseinfoNoteName.length = 10 := by
  rw [eraseinfoNoteName, List.length_append, length_strBytes]
  decide +kernel

/-- **The eraseinfo note** has its header, its name, and the text or the estimated size, whichever
is longer. -/
theorem writeElfEraseinfo_pos {h : Header} {size : String} {w w' : Writer}
    (hz : h.sizeElfEraseinfo ≠ 0) (hb : w.cdHeader.buf = [])
    (hw : writeElfEraseinfo c h size w = some w') :
    w'.cdHeader.pos = offsetEraseinfoNote c h +
      (24 + max h.sizeElfEraseinfo (textSize (eraseLines size w.filter.eraseInfo))) := by
  unfold writeElfEraseinfo at hw
  rw [if_neg hz] at hw
  dsimp only at hw
  split at hw
  · cases hw
  rename_i cd1 o1 h1
  split at hw
  · cases hw
  rename_i cd2 o2 h2
  obtain ⟨⟨n, cd3, o3⟩, h3, hw⟩ := Option.map_eq_some_iff.1 hw
  obtain ⟨hn, p3, b3⟩ := writeEraseinfo_pos h3
  have p1 := (writeCache_pos h1).1
  have p2 := (writeCache_pos h2).1
  have hpos : cd3.pos = offsetEraseinfoNote c h + 24 + n := by
    rw [p3, p2, p1]
    simp only [CacheData.pos, hb, nhdrBytes, roundup, length_eraseinfoNoteName, List.length_append,
      length_hostBytes, List.length_replicate, List.length_nil]
  rw [← hn]
  dsimp only at hw
  split at hw
  · rename_i hlt
    cases hw
    rw [writeCacheZero_pos b3, hpos]
    omega
  · rename_i hge
    cases hw
    show cd3.pos = _
    rw [hpos]
    omega

/-! ## The number of headers -/

/-- The number of headers, with PT_NOTE, fits an `int` (ELF64) or the 16 bits of `e_phnum` (ELF32). -/
def CountFits (c : Info) : Prop := 1 + segmentCount c < if c.elf64 then 2 ^ 31 else 2 ^ 16

/-- PT_NOTE is one of the program headers. -/
theorem countP_lt_of_note {m : Phdr} (hm : noteMemory c = some m) (q : Phdr → Bool)
    (hq : ∀ p, q p = true → p.pType = ptLoad) : c.phdrs.countP q < c.phdrs.length := by
  have htype : m.pType = ptNote := by simpa using List.find?_some hm
  refine Nat.lt_of_le_of_ne List.countP_le_length fun h => ?_
  have hs := hq m (List.countP_eq_length.1 h m (List.mem_of_find?_eq_some hm))
  simp [htype, ptLoad, ptNote] at hs

theorem writeElfHeader_elf64 {l : Layout} (h64 : c.elf64 = true) (h : writeElfHeader c = some l) :
    l.phdrEnd = 64 + 56 * int32 (int32 (segmentCount c) + 1) := by
  unfold writeElfHeader at h
  dsimp only at h
  split at h
  · cases h
  · rw [← Option.some.inj h]
    simp only [ehdrSize, phdrSize, h64, if_true, getLoadsDumpfileCyclic, numNewLoad_eq]
    rfl

theorem writeElfHeader_elf32 {l : Layout} (h64 : c.elf64 = false) (h : writeElfHeader c = some l) :
    l.phdrEnd = 52 + 32 * ((1 + int32 (segmentCount c)) % 2 ^ 16) ∧ l.shInfo = none := by
  unfold writeElfHeader at h
  dsimp only at h
  split at h
  · cases h
  · rw [if_neg (by simp [h64])] at h
    rw [← Option.some.inj h]
    simp only [ehdrSize, phdrSize, h64, Bool.false_eq_true, if_false, getLoadsDumpfileCyclic,
      numNewLoad_eq]
    exact ⟨rfl, trivial⟩

/-- The reserved area holds the headers exactly when their number fits: PT_LOADs that are counted
and not written do not make up for what is cut off. -/
theorem headers_fit {l : Layout} {n : Nat} (hl : writeElfHeader c = some l)
    (hstart : (ehdrSize c : Int) < l.phdrEnd) (hn : n + c.phdrs.countP skipped = segmentCount c)
    (hk : c.phdrs.countP skipped + 1 < if c.elf64 then 2 ^ 31 else 2 ^ 16) :
    ehdrSize c + phdrSize c * (1 + n) ≤ l.phdrEnd.toNat ↔ CountFits c := by
  unfold CountFits
  cases h64 : c.elf64 with
  | true =>
    have he := writeElfHeader_elf64 h64 hl
    simp only [ehdrSize, phdrSize, h64, if_true, int32] at hstart he hk ⊢
    omega
  | false =>
    have he := (writeElfHeader_elf32 h64 hl).1
    simp only [ehdrSize, phdrSize, h64, Bool.false_eq_true, if_false, int32] at hstart he hk ⊢
    omega

theorem field_offsetNote {l : Layout} (hl : writeElfHeader c = some l) :
    field c (offsetNote l) = offsetNote l := by
  unfold field
  cases h64 : c.elf64 with
  | true =>
    have he := writeElfHeader_elf64 h64 hl
    rw [if_pos rfl]
    apply Nat.mod_eq_of_lt
    simp only [offsetNote, shdrSize, int32] at he ⊢
    split <;> omega
  | false =>
    obtain ⟨he, hs⟩ := writeElfHeader_elf32 h64 hl
    rw [if_neg (by simp)]
    apply Nat.mod_eq_of_lt
    simp only [offsetNote, hs, int32] at he ⊢
    simp only [Option.isSome_none, Bool.false_eq_true, if_false]
    omega

/-- Without a split there are as many segments as PT_LOADs. -/
theorem segmentCount_of_no_gaps (h : ∀ p ∈ c.phdrs, p.pType = ptLoad → gaps c p = 0) :
    segmentCount c = c.phdrs.countP (·.pType = ptLoad) := by
  unfold segmentCount
  generalize c.phdrs = ps at h
  induction ps with
  | nil => rfl
  | cons p l ih =>
    have hl := ih fun q hq => h q (List.mem_cons_of_mem _ hq)
    by_cases hp : p.pType = ptLoad
    · rw [List.filter_cons_of_pos (by simpa using hp), List.map_cons, List.sum_cons, hl,
        List.countP_cons_of_pos (by simpa using hp), h p (by simp) hp]
      omega
    · rw [List.filter_cons_of_neg (by simpa using hp), hl,
        List.countP_cons_of_neg (by simpa using hp)]

/-- More headers than fit are there only with a dumpable page behind a gap. -/
theorem dumpable_of_not_fits {m : Phdr} (hm : noteMemory c = some m)
    (hphnum : c.phdrs.length < if c.elf64 then 2 ^ 31 else 2 ^ 16) (h : ¬ CountFits c) :
    ∃ p ∈ c.phdrs, Walked p ∧ ∃ q ∈ walk c p, c.dumpable q = true := by
  apply Classical.byContradiction
  intro hno
  refine h ?_
  have hlt := countP_lt_of_note hm (·.pType = ptLoad) (by simp)
  have hseg := segmentCount_of_no_gaps (c := c) fun p hp ht => by
    by_cases hn : p.pPaddr = notPaddr
    · exact gaps_notPaddr hn
    · refine List.countP_eq_zero.2 fun q hq hg => hno ⟨p, hp, ⟨ht, hn⟩, q, hq, ?_⟩
      exact (gapBefore_iff.1 hg).1
  rw [CountFits, hseg]
  omega

/-! ## The result -/

/-- The areas do not overlap and the eraseinfo note is in the range that PT_NOTE announces. -/
def AreasOk (a : Areas) : Prop :=
  a.list.Pairwise Area.Disjoint ∧ a.eraseinfo.Within a.announced

/-- The estimate is made, and the file that is written has its areas apart. -/
def AreasHold (c : Info) (size : String) (w : Writer) : Prop :=
  (∃ fuel n, getSizeEraseinfo fuel w.filter = some n) ∧
    ∀ fuel a, writeoutElf c fuel size w = some a → AreasOk a

/-- The place for the eraseinfo note: it starts behind the notes that were copied (`sizeNote`), its
text `text` ends before the announced end, and the announced size fits its field. -/
def NoteFits (c : Info) (sizeNote estimate text : Nat) : Prop :=
  sizeNote ≤ roundup (sizePtNote c) 4 ∧
    roundup (sizePtNote c) 4 + max estimate text ≤ sizeNote + roundup estimate 4 ∧
    sizeNote + 24 + roundup estimate 4 < if c.elf64 then 2 ^ 64 else 2 ^ 32

theorem noteFilesz_eq (sizeNote : Nat) {est : Nat} (h : est ≠ 0) :
    noteFilesz sizeNote est = u64 (sizeNote + 24 + roundup est 4) := by
  have h12 : roundup 10 4 = 12 := rfl
  rw [noteFilesz, if_neg h, length_eraseinfoNoteName, h12, nhdrSize]
  congr 1
  omega

theorem writeoutElf_eq {size : String} {w w1 w2 : Writer} {l : Layout} {h : Header} {fuel n : Nat}
    {m : Phdr} (hn : getSizeEraseinfo fuel w.filter = some n)
    (h1 : writeHeaderAndPages c (estimate w.filter) w = some (l, h, w1))
    (h2 : writeElfEraseinfo c h size w1 = some w2) (hm : noteMemory c = some m) :
    writeoutElf c fuel size w = some (areasOf c l h m.pFilesz w1 w2) := by
  have he := getSizeEraseinfo_some hn
  subst he
  rw [writeoutElf, hn, Option.bind_some, h1, Option.bind_some]
  dsimp only
  rw [h2, hm]
  rfl

theorem roundup_four (x : Nat) : x ≤ roundup x 4 ∧ roundup x 4 < x + 4 ∧ roundup x 4 % 4 = 0 := by
  unfold roundup
  omega

theorem field_le (x : Nat) : field c x ≤ x := by
  unfold field
  split <;> exact Nat.mod_le _ _

/-- The places of the areas: the headers end at `K`, their area at `E`, the notes start at `N` and
the data ends at `D`. -/
structure Places (c : Info) (a : Areas) (E K N sizeNote estimate text D : Nat) : Prop where
  ehdr : a.ehdr = ⟨0, ehdrSize c⟩
  phdrs : a.phdrs = ⟨ehdrSize c, K⟩
  shdr : a.shdr = ⟨E, N⟩
  notes : a.notes = ⟨N, N + sizeNote⟩
  none : estimate = 0 → a.eraseinfo = ⟨0, 0⟩
  eraseinfo : estimate ≠ 0 → a.eraseinfo =
    ⟨N + roundup (sizePtNote c) 4, N + roundup (sizePtNote c) 4 + (24 + max estimate text)⟩
  loads : a.loads = ⟨N + noteFilesz sizeNote estimate, D⟩
  announced : a.announced = ⟨N, N + field c (noteFilesz sizeNote estimate)⟩
  starts : ehdrSize c < E
  shdrEnd : E ≤ N
  dataEnd : N + noteFilesz sizeNote estimate ≤ D

variable {a : Areas} {E K N F est text D : Nat}

theorem disjoint_of_apart {as : List Area}
    (h : as.Pairwise fun a b => a.stop ≤ b.start ∨ b.stop ≤ a.start) :
    as.Pairwise Area.Disjoint := by
  refine h.imp fun {a b} hab x hx => ?_
  obtain ⟨⟨h1, h2⟩, h3, h4⟩ := hx
  omega

theorem Places.disjoint (h : Places c a E K N F est text D) (hK : K ≤ E)
    (hn : est ≠ 0 → NoteFits c F est text) : AreasOk a := by
  have hs := h.starts
  have hN := h.shdrEnd
  have hD := h.dataEnd
  by_cases he : est = 0
  · have hz : noteFilesz F est = F := if_pos he
    rw [hz] at hD
    refine ⟨?_, ?_⟩
    · apply disjoint_of_apart
      simp only [Areas.list, h.ehdr, h.phdrs, h.shdr, h.notes, h.none he, h.loads, hz]
      simp
      omega
    · intro x hx
      rw [h.none he] at hx
      exact absurd hx.2 (Nat.not_lt_zero x)
  · obtain ⟨n1, n2, n3⟩ := hn he
    have hz : noteFilesz F est = F + 24 + roundup est 4 := by
      rw [noteFilesz_eq F he, u64, Nat.mod_eq_of_lt]
      split at n3 <;> omega
    have hf : field c (noteFilesz F est) = F + 24 + roundup est 4 := by
      rw [hz, field]
      split at n3 <;> split <;> first | contradiction | exact Nat.mod_eq_of_lt n3
    rw [hz] at hD
    refine ⟨?_, ?_⟩
    · apply disjoint_of_apart
      simp only [Areas.list, h.ehdr, h.phdrs, h.shdr, h.notes, h.eraseinfo he, h.loads, hz]
      simp
      omega
    · intro x hx
      rw [h.eraseinfo he] at hx
      rw [h.announced, hf]
      simp only [Area.Mem] at hx ⊢
      omega

theorem AreasOk.apart (h : AreasOk a) :
    a.phdrs.Disjoint a.shdr ∧ a.phdrs.Disjoint a.notes ∧ a.phdrs.Disjoint a.eraseinfo ∧
      a.phdrs.Disjoint a.loads ∧ a.notes.Disjoint a.eraseinfo := by
  have := h.1
  simp only [Areas.list, List.pairwise_cons, List.mem_cons, forall_eq_or_imp] at this
  tauto

/-- The note that was announced and lies apart from the copied notes. -/
theorem Places.noteFits (h : Places c a E K N F est text D) (hok : AreasOk a) (he : est ≠ 0) :
    NoteFits c F est text := by
  obtain ⟨-, -, -, -, hne⟩ := hok.apart
  have hin := hok.2
  obtain ⟨r1, r2, -⟩ := roundup_four est
  simp only [Area.Disjoint, Area.Within, Area.Mem, h.notes, h.eraseinfo he, h.announced] at hne hin
  have hF : F ≤ roundup (sizePtNote c) 4 := by
    have := hne (N + roundup (sizePtNote c) 4)
    omega
  have hend := hin (N + roundup (sizePtNote c) 4 + (24 + max est text) - 1)
  have hz := noteFilesz_eq F he
  have hle := field_le (c := c) (noteFilesz F est)
  have hu : noteFilesz F est ≤ F + 24 + roundup est 4 := by
    rw [hz]
    exact Nat.mod_le _ _
  refine ⟨hF, by omega, ?_⟩
  have hlt : F + 24 + roundup est 4 - 4 < field c (noteFilesz F est) := by omega
  rw [hz, field, u64] at hlt
  split <;> rename_i h64 <;> simp only [h64, if_true, Bool.false_eq_true, if_false] at hlt <;> omega

theorem Places.headers_end (h : Places c a E K N F est text D) (hok : AreasOk a)
    (hdata : E < K → N + noteFilesz F est < D) : K ≤ E := by
  obtain ⟨d1, d2, d3, d4, -⟩ := hok.apart
  have hs := h.starts
  have hN := h.shdrEnd
  simp only [Area.Disjoint, Area.Mem, h.phdrs, h.shdr, h.notes, h.loads] at d1 d2 d3 d4
  apply Classical.byContradiction
  intro hK
  -- the byte at `E` belongs to the headers and to the first area behind them that is not empty
  have e1 := d1 E
  have e2 := d2 E
  have e4 := d4 E
  have hd := hdata (by omega)
  by_cases he : est = 0
  · have hz : noteFilesz F est = F := if_pos he
    omega
  · obtain ⟨n1, n2, -⟩ := h.noteFits hok he
    obtain ⟨r1, r2, -⟩ := roundup_four est
    have r3 := (roundup_four (sizePtNote c)).2.2
    have e3 := d3 E
    rw [h.eraseinfo he] at e3
    dsimp only at e3
    omega

/-- An ELF64 input with a note of `size` bytes and one page, which is not dumpable. -/
def noteAndPage (size : Nat) : Info :=
  { pageSize := 4096, pfnCyclic := 8, elf64 := true, dumpable := fun _ => false
    phdrs := [{ pType := 4, pOffset := 64, pPaddr := 0, pFilesz := size, pMemsz := size },
      { pType := 1, pOffset := 4096, pPaddr := 0, pFilesz := 4096, pMemsz := 4096 }]
    memory := List.replicate (64 + size) 0
    pageSize_pos := four_kib_pos, pfnCyclic_pos := eight_pos }

/-- Empty caches and the entries of the requests. -/
def filterWriter (reqs : List Request) : Writer :=
  { emptyWriter with filter := gatherFilterInfo id reqs }

/-- One entry from the configuration file, on the page. -/
def oneCommand : List Request := [.symbol 0 "ab" 16 8 false]

end Elf
