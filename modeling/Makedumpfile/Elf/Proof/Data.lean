import Makedumpfile.Elf.Proof.Segments

/-!
# The data of the segments

The page cache receives the data of the segments in the order of their headers, so the data of a
header stands at its offset (`Data`); the headers go through their own cache, into the area reserved
before the data. With the geometry of the headers this gives `segments_iff`.
-/

namespace Elf

open Lib Output ByteFile Erase

variable {c : Info} {l0 : List FilterInfo} {base off : Nat}

/-- The data of a segment: `p_filesz` bytes of the input from the place of the segment's physical
address in a PT_LOAD on. Bytes that an entry of the filter list `l0` covers are left open. -/
structure SegData (c : Info) (l0 : List FilterInfo) (h : Phdr) (data : List UInt8) : Prop where
  length : data.length = h.pFilesz
  source : ∃ p ∈ c.phdrs, p.pType = ptLoad ∧ p.Backs h.pPaddr ∧
    p.pOffset + (h.pPaddr - p.pPaddr) + h.pFilesz ≤ c.memory.length ∧
    ∀ k < h.pFilesz, (∀ f ∈ l0, ¬ f.Covers (h.pPaddr + k)) →
      byteAt data k = byteAt c.memory (p.pOffset + (h.pPaddr - p.pPaddr) + k)

/-! ## The two caches -/

structure Caches (c : Info) (l0 : List FilterInfo) (base off : Nat) (hstream stream : List UInt8)
    (w : Writer) : Prop where
  page : CacheInv off stream w.cdPage w.out.file
  header : CacheInv base hstream w.cdHeader w.out.file
  pageFd : w.cdPage.fd = .file
  headerFd : w.cdHeader.fd = .file
  noFail : NoFail c.opts w.out
  within : Within w.filter.filterInfo l0
  room : base + hstream.length ≤ off

theorem cacheInv_le {cd : CacheData} {f : ByteFile} {s : List UInt8} (h : CacheInv base s cd f) :
    base ≤ cd.offset := by
  obtain ⟨w, -, ho, -⟩ := h
  omega

theorem Caches.writePage {hs st b : List UInt8} {w : Writer} (h : Caches c l0 base off hs st w)
    {cd : CacheData} {out : Out} (hw : writeCache c.opts w.cdPage b w.out = (true, cd, out))
    {filter : Filter} (hf : Within filter.filterInfo l0) :
    Caches c l0 base off hs (st ++ b) { w with cdPage := cd, out := out, filter := filter } := by
  obtain ⟨cd', o', chunk, he, hstep⟩ := writeCache_ok w.cdPage h.noFail h.pageFd b
  rw [he] at hw
  cases hw
  have hl := h.header.length
  have hle := cacheInv_le h.page
  have hroom := h.room
  refine ⟨h.page.step hstep, ?_, hstep.fd.trans h.pageFd, h.headerFd, hstep.noFail, hf, h.room⟩
  show CacheInv base hs w.cdHeader out.file
  rw [hstep.file]
  exact h.header.pwrite (.inl (by omega))

theorem Caches.writeHeader {hs st b : List UInt8} {w : Writer} (h : Caches c l0 base off hs st w)
    (hroom : base + (hs ++ b).length ≤ off) {cd : CacheData} {out : Out}
    (hw : writeCache c.opts w.cdHeader b w.out = (true, cd, out)) (written : List (Nat × Phdr)) :
    Caches c l0 base off (hs ++ b) st
      { w with cdHeader := cd, out := out, written := written } := by
  obtain ⟨cd', o', chunk, he, hstep⟩ := writeCache_ok w.cdHeader h.noFail h.headerFd b
  rw [he] at hw
  cases hw
  have hl := h.header.length
  have hb := congrArg List.length hstep.buf
  simp only [List.length_append] at hb hroom
  refine ⟨?_, h.header.step hstep, h.pageFd, hstep.fd.trans h.headerFd, hstep.noFail, h.within,
    by simpa using hroom⟩
  show CacheInv off st w.cdPage out.file
  rw [hstep.file]
  exact h.page.pwrite (.inr (by omega))

theorem length_phdrBytes (p : Phdr) : (phdrBytes c p).length = phdrSize c := by
  unfold phdrBytes phdrSize
  cases c.elf64 <;> simp

/-- The pages of a segment, read one after the other. -/
theorem copyPages_data {hs st : List UInt8} {paddr o size : Nat} {w w' : Writer}
    (h : Caches c l0 base off hs st w) (hc : copyPages c paddr o size w = some w') :
    ∃ data, Caches c l0 base off hs (st ++ data) w' ∧ data.length = size ∧
      (0 < size → o + size ≤ c.memory.length) ∧ w'.offSegLoad = w.offSegLoad ∧
      ∀ k < size, (∀ f ∈ l0, ¬ f.Covers (paddr + k)) →
        byteAt data k = byteAt c.memory (o + k) := by
  induction size using Nat.strongRecOn generalizing paddr o st w with
  | ind size ih =>
    rw [copyPages] at hc
    split at hc
    · rename_i hz
      cases hc
      exact ⟨[], by simpa using h, by simp [hz], fun h => by omega, rfl, fun k hk => by omega⟩
    · rename_i hz
      have hp := c.pageSize_pos
      dsimp only at hc
      generalize hn : min c.pageSize size = n at hc
      split at hc
      · cases hc
      · rename_i hlen
        have hlen : (c.memory.pread o n).length = n := not_not.1 hlen
        obtain ⟨k1, k2, k3⟩ := @filterDataBuffer_keeps paddr n _ w.filter hlen
        split at hc
        · cases hc
        · rename_i cd out hw
          obtain ⟨data, i1, i2, i3, i4, i5⟩ := ih (size - c.pageSize) (by omega)
            (h.writePage hw (k2.trans h.within)) hc
          rw [List.append_assoc] at i1
          rw [length_pread] at hlen
          refine ⟨_, i1, by rw [List.length_append, k1, i2]; omega, fun _ => by omega, i4,
            fun k hk hcov => ?_⟩
          rw [byteAt_append, k1]
          split
          · rename_i hkn
            rw [k3 k fun f hf hx => ?_]
            · exact getD_pread hkn
            · obtain ⟨g, hg, hgx⟩ := h.within f hf _ hx
              exact hcov g hg hgx
          · rename_i hkn
            have e : ∀ x, x + k = x + n + (k - n) := fun x => by omega
            rw [e o, i5 (k - n) (by omega) fun f hf => by rw [← e]; exact hcov f hf]

theorem paddrToOffset2_spec {paddr hint : Nat} (h : paddrToOffset2 c paddr hint ≠ 0) :
    ∃ p ∈ c.phdrs, p.pType = ptLoad ∧ p.Backs paddr ∧
      paddrToOffset2 c paddr hint = p.pOffset + (paddr - p.pPaddr) := by
  unfold paddrToOffset2 at h ⊢
  split at h
  · rename_i p hp
    have hm := List.mem_of_find?_eq_some hp
    have hc := List.find?_some hp
    simp only [List.mem_filter, decide_eq_true_eq] at hm
    simp only [decide_eq_true_eq] at hc
    have hle : u64 (p.pPaddr + p.pFilesz) ≤ p.pPaddr + p.pFilesz := Nat.mod_le _ _
    exact ⟨p, hm.1, hm.2, ⟨hc.1, by omega⟩, Nat.add_comm _ _⟩
  · exact absurd rfl h

/-- A header and its data. -/
theorem writeSegment_data {hs st : List UInt8} {i hint : Nat} {load : Phdr} {w w' : Writer}
    (h : Caches c l0 base off hs st w) (hroom : base + hs.length + phdrSize c ≤ off)
    (hc : writeSegment c i hint load w = some w') :
    ∃ data, Caches c l0 base off (hs ++ phdrBytes c load) (st ++ data) w' ∧
      data.length = load.pFilesz ∧ w'.offSegLoad = w.offSegLoad ∧
      (0 < load.pFilesz → SegData c l0 load data) := by
  obtain ⟨w1, h1, h2⟩ := Option.bind_eq_some_iff.1 hc
  unfold writeElfPhdr at h1
  split at h1
  · cases h1
  · rename_i cd out hw
    cases h1
    have hC := h.writeHeader (by rw [List.length_append, length_phdrBytes]; omega) hw
      (w.written ++ [(i, load)])
    split at h2
    · rename_i hz
      cases h2
      exact ⟨[], by simpa using hC, by simp [hz], rfl, fun h => by omega⟩
    · rename_i hz
      unfold writeElfLoadSegment at h2
      dsimp only at h2
      split at h2
      · cases h2
      · rename_i hoff
        obtain ⟨data, d1, d2, d3, d4, d5⟩ := copyPages_data hC h2
        obtain ⟨p, hp, ht, hb, ho⟩ := paddrToOffset2_spec hoff
        rw [ho] at d3 d5
        exact ⟨data, d1, d2, d4, fun hpos => ⟨d2, p, hp, ht, hb, d3 hpos, d5⟩⟩

/-! ## The run -/

/-- The data of each header written stands at its offset in the stream of the page cache. -/
def Logged (c : Info) (l0 : List FilterInfo) (off : Nat) (stream : List UInt8)
    (written : List (Nat × Phdr)) : Prop :=
  ∀ e ∈ written, 0 < e.2.pFilesz → ∃ pre data post, stream = pre ++ data ++ post ∧
    e.2.pOffset = off + pre.length ∧ SegData c l0 e.2 data

/-- `h0` bytes are in the header cache before the first PT_LOAD header. -/
structure Data (c : Info) (l0 : List FilterInfo) (base off h0 : Nat) (hstream stream : List UInt8)
    (w : Writer) : Prop where
  caches : Caches c l0 base off hstream stream w
  headers : hstream.length = h0 + phdrSize c * w.written.length
  pos : w.offSegLoad = off + stream.length
  logged : Logged c l0 off stream w.written

theorem Data.segment {hs st : List UInt8} {h0 N i hint : Nat} {load : Phdr} {w w' : Writer}
    (h : Data c l0 base off h0 hs st w) (hN : base + h0 + phdrSize c * N ≤ off)
    (hle : w'.written.length ≤ N) (ho : load.pFilesz ≠ 0 → load.pOffset = w.offSegLoad)
    (hc : writeSegment c i hint load w = some w') :
    ∃ hs' st', Data c l0 base off h0 hs' st'
      { w' with offSegLoad := w'.offSegLoad + load.pFilesz } := by
  have hw := writeSegment_written hc
  have hlen : w'.written.length = w.written.length + 1 := by simp [hw]
  have hmul : phdrSize c * (w.written.length + 1) ≤ phdrSize c * N :=
    Nat.mul_le_mul_left _ (hlen ▸ hle)
  have hhead := h.headers
  rw [Nat.mul_add, Nat.mul_one] at hmul
  obtain ⟨data, d1, d2, d3, d4⟩ := writeSegment_data h.caches (by omega) hc
  refine ⟨_, _, ⟨d1.page, d1.header, d1.pageFd, d1.headerFd, d1.noFail, d1.within, d1.room⟩,
    ?_, ?_, fun e he hpos => ?_⟩
  · show _ = h0 + phdrSize c * w'.written.length
    rw [List.length_append, length_phdrBytes, hlen, Nat.mul_add, Nat.mul_one]
    omega
  · show w'.offSegLoad + load.pFilesz = _
    rw [d3, h.pos, List.length_append, d2]
    omega
  · have he : e ∈ w.written ++ [(i, load)] := hw ▸ he
    rcases List.mem_append.1 he with he | he
    · obtain ⟨pre, dat, post, hst, hoff, hsd⟩ := h.logged e he hpos
      exact ⟨pre, dat, post ++ data, by rw [hst]; simp, hoff, hsd⟩
    · rw [List.mem_singleton.1 he] at hpos ⊢
      exact ⟨st, data, [], by simp, by rw [ho (by simpa using Nat.pos_iff_ne_zero.1 hpos), h.pos],
        d4 hpos⟩

theorem Data.page {h0 N i p : Nat} {orig : Phdr} {s s' : Writer × Seg}
    (h : ∃ hs st, Data c l0 base off h0 hs st s.1) (hN : base + h0 + phdrSize c * N ≤ off)
    (hle : s'.1.written.length ≤ N) (hc : writePage c i orig s p = some s') :
    ∃ hs st, Data c l0 base off h0 hs st s'.1 := by
  obtain ⟨hs, st, hD⟩ := h
  obtain ⟨w, g⟩ := s
  obtain ⟨w', g'⟩ := s'
  obtain ⟨-, rfl, -⟩ | ⟨-, -, rfl, -⟩ | ⟨-, -, w1, h1, rfl, -⟩ := writePage_cases hc
  · exact ⟨hs, st, hD⟩
  · exact ⟨hs, st, hD⟩
  · exact hD.segment hN (show w1.written.length ≤ N from hle) (fun hz => if_pos hz) h1

theorem writePage_mono {i p : Nat} {orig : Phdr} {s s' : Writer × Seg}
    (h : writePage c i orig s p = some s') : s.1.written.length ≤ s'.1.written.length := by
  obtain ⟨w, g⟩ := s
  obtain ⟨w', g'⟩ := s'
  obtain ⟨-, rfl, -⟩ | ⟨-, -, rfl, -⟩ | ⟨-, -, w1, h1, rfl, -⟩ := writePage_cases h
  · exact Nat.le_refl _
  · exact Nat.le_refl _
  · simp [writeSegment_written h1]

theorem Data.load {h0 N : Nat} {w w' : Writer} {ip : Phdr × Nat}
    (h : ∃ hs st, Data c l0 base off h0 hs st w) (hN : base + h0 + phdrSize c * N ≤ off)
    (hle : w'.written.length ≤ N) (hc : writeLoad c w ip = some w') :
    ∃ hs st, Data c l0 base off h0 hs st w' := by
  unfold writeLoad at hc
  split at hc
  · cases hc
    exact h
  · obtain ⟨⟨w1, g⟩, h1, h2⟩ := Option.bind_eq_some_iff.1 hc
    obtain ⟨w2, h3, rfl⟩ := Option.map_eq_some_iff.1 h2
    have hw2 := congrArg List.length (writeSegment_written h3)
    rw [List.length_append, List.length_singleton] at hw2
    have hle2 : w2.written.length ≤ N := hle
    rw [walkLoad_eq] at h1
    obtain ⟨hs, st, hD⟩ := foldlM_inv (m := fun s => s.1.written.length)
      (P := fun s => ∃ hs st, Data c l0 base off h0 hs st s.1) (fun _ _ _ => writePage_mono)
      (fun _ _ _ hp hl hd => Data.page hd hN hl hp) _ h1 (show w1.written.length ≤ N by omega) h
    exact hD.segment hN hle2 (fun _ => rfl) h3

theorem writeLoad_mono {w w' : Writer} {ip : Phdr × Nat} (h : writeLoad c w ip = some w') :
    w.written.length ≤ w'.written.length := by
  rw [writeLoad_count (p := ip.1) (i := ip.2) h]
  exact Nat.le_add_right _ _

/-- The flushes put the whole streams into the file. -/
theorem flushWriter_data {hs st : List UInt8} {w w' : Writer} (h : Caches c l0 base off hs st w)
    (hc : flushWriter c w = some w') : Holds w'.out.file off st := by
  obtain ⟨cdh, o1, ch1, e1, s1, -⟩ := writeCacheBufsz_ok w.cdHeader h.noFail h.headerFd
  obtain ⟨cdp, o2, ch2, e2, s2, hb⟩ := writeCacheBufsz_ok w.cdPage s1.noFail h.pageFd
  unfold flushWriter at hc
  rw [e1] at hc
  dsimp only at hc
  rw [e2] at hc
  cases hc
  have hl := h.header.length
  have hbuf := congrArg List.length s1.buf
  have hroom := h.room
  simp only [List.length_append, List.length_nil] at hbuf
  have hpage : CacheInv off st w.cdPage o1.file := by
    rw [s1.file]
    exact h.page.pwrite (.inr (by omega))
  have hfin := hpage.step s2
  rw [List.append_nil] at hfin
  exact (hfin.flushed hb).1

/-! ## Writes that succeed -/

theorem copyPages_ok (paddr : Nat) {o size : Nat} (w : Writer) (hn : NoFail c.opts w.out)
    (hfd : w.cdPage.fd = .file) (hlen : o + size ≤ c.memory.length) :
    ∃ w', copyPages c paddr o size w = some w' ∧ NoFail c.opts w'.out ∧ w'.cdPage.fd = .file ∧
      w'.cdHeader = w.cdHeader := by
  induction size using Nat.strongRecOn generalizing paddr o w with
  | ind size ih =>
    rw [copyPages]
    split
    · exact ⟨w, rfl, hn, hfd, rfl⟩
    · have hp := c.pageSize_pos
      rw [if_neg (by rw [length_pread]; omega)]
      obtain ⟨cd', o', chunk, he, hstep⟩ := writeCache_ok w.cdPage hn hfd
        (filterDataBuffer (c.memory.pread o (min c.pageSize size)) paddr (min c.pageSize size)
          w.filter).1
      dsimp only
      rw [he]
      exact ih (size - c.pageSize) (by omega) _ _ hstep.noFail (hstep.fd.trans hfd) (by omega)

theorem writeSegment_ok (i hint : Nat) (load : Phdr) (w : Writer) (hn : NoFail c.opts w.out)
    (hfd : w.cdHeader.fd = .file ∧ w.cdPage.fd = .file)
    (hoff : paddrToOffset2 c load.pPaddr hint ≠ 0)
    (hlen : paddrToOffset2 c load.pPaddr hint + load.pFilesz ≤ c.memory.length) :
    ∃ w', writeSegment c i hint load w = some w' ∧ NoFail c.opts w'.out ∧
      w'.cdHeader.fd = .file ∧ w'.cdPage.fd = .file := by
  obtain ⟨cd', o', chunk, he, hstep⟩ := writeCache_ok w.cdHeader hn hfd.1 (phdrBytes c load)
  rw [writeSegment, writeElfPhdr, he]
  dsimp only [Option.bind_some]
  split
  · exact ⟨_, rfl, hstep.noFail, hstep.fd.trans hfd.1, hfd.2⟩
  · rw [writeElfLoadSegment, if_neg hoff]
    obtain ⟨w', h, hn', hfd', hh⟩ := copyPages_ok load.pPaddr
      { w with cdHeader := cd', out := o', written := w.written ++ [(i, load)] }
      hstep.noFail hfd.2 hlen
    exact ⟨w', h, hn', by rw [hh]; exact hstep.fd.trans hfd.1, hfd'⟩

theorem flushWriter_ok (w : Writer) (hn : NoFail c.opts w.out)
    (hfd : w.cdHeader.fd = .file ∧ w.cdPage.fd = .file) : ∃ w', flushWriter c w = some w' := by
  obtain ⟨cdh, o1, ch1, e1, s1, -⟩ := writeCacheBufsz_ok w.cdHeader hn hfd.1
  obtain ⟨cdp, o2, ch2, e2, s2, -⟩ := writeCacheBufsz_ok w.cdPage s1.noFail hfd.2
  rw [flushWriter, e1]
  dsimp only
  rw [e2]
  exact ⟨_, rfl⟩

/-! ## The headers of one PT_LOAD -/

/-- The headers written for input header `i`. -/
def emitted (w : Writer) (i : Nat) : List Phdr := (w.written.filter (·.1 = i)).map (·.2)

theorem emitted_append {w w' : Writer} {i j : Nat} {hs : List Phdr}
    (h : w'.written = w.written ++ hs.map (j, ·)) :
    emitted w' i = emitted w i ++ (if j = i then hs else []) := by
  unfold emitted
  rw [h, List.filter_append, List.map_append]
  congr 1
  split
  · rename_i hj
    subst hj
    rw [List.filter_eq_self.2 (by simp)]
    simp
  · rename_i hj
    rw [List.filter_eq_nil_iff.2 (by simp [hj])]
    rfl

theorem writeLoad_index {w w' : Writer} {ip : Phdr × Nat} (h : writeLoad c w ip = some w') :
    ∃ hs : List Phdr, w'.written = w.written ++ hs.map (ip.2, ·) := by
  by_cases hs : ip.1.pType ≠ ptLoad ∨ ip.1.pPaddr = notPaddr
  · unfold writeLoad at h
    rw [if_pos hs] at h
    cases h
    exact ⟨[], by simp⟩
  · rw [not_or] at hs
    obtain ⟨hs, hw, -⟩ := writeLoad_segments (not_not.1 hs.1) hs.2 h
    exact ⟨hs, hw⟩

/-- The headers for input header `i` are those of its own turn. -/
theorem emitted_of_run (i : Nat) (orig : Phdr) : ∀ (l : List Phdr) (k : Nat) {w w' : Writer},
    (l.zipIdx k).foldlM (writeLoad c) w = some w' →
    (k ≤ i → l[i - k]? = some orig → ∃ w1 w2, writeLoad c w1 (orig, i) = some w2 ∧
      ∀ hs : List Phdr, w2.written = w1.written ++ hs.map (i, ·) → emitted w' i = emitted w i ++ hs) ∧
    (i < k → emitted w' i = emitted w i)
  | [], _, _, _, h => by
    cases h
    exact ⟨fun _ h => by simp at h, fun _ => rfl⟩
  | p :: l, k, w, w', h => by
    rw [List.zipIdx_cons, List.foldlM_cons] at h
    obtain ⟨w1, h1, h2⟩ := Option.bind_eq_some_iff.1 h
    obtain ⟨ih1, ih2⟩ := emitted_of_run i orig l (k + 1) h2
    obtain ⟨hs, hw⟩ := writeLoad_index h1
    have he := emitted_append (i := i) hw
    refine ⟨fun hk hl => ?_, fun hk => ?_⟩
    · by_cases hki : k = i
      · subst hki
        obtain rfl : p = orig := by simpa using hl
        refine ⟨w, w1, h1, fun hs' hw' => ?_⟩
        rw [ih2 (by omega), emitted_append hw', if_pos rfl]
      · obtain ⟨w2, w3, hrun, hall⟩ := ih1 (by omega) (by
          rw [show i - k = i - (k + 1) + 1 by omega, List.getElem?_cons_succ] at hl
          exact hl)
        refine ⟨w2, w3, hrun, fun hs' hw' => ?_⟩
        rw [hall hs' hw', he, if_neg hki, List.append_nil]
    · rw [ih2 (by omega), he, if_neg (by omega), List.append_nil]

theorem segmentsOk_iff {w w' : Writer} (h0 : w.written = [])
    (h : writeElfPagesCyclic c off w = some w') {i : Nat} {orig : Phdr}
    (hi : c.phdrs[i]? = some orig) (hload : orig.pType = ptLoad)
    (hpaddr : orig.pPaddr ≠ notPaddr) :
    SegmentsOk c orig (emitted w' i) ↔ reachOf c orig = orig.pPaddr + orig.pMemsz := by
  obtain ⟨w1, h1, h2⟩ := Option.bind_eq_some_iff.1 h
  obtain ⟨wa, wb, hrun, hall⟩ := (emitted_of_run i orig c.phdrs 0 h1).1 (Nat.zero_le i)
    (by simpa using hi)
  obtain ⟨hs, hw, hiff⟩ := writeLoad_segments hload hpaddr hrun
  have hem : emitted w' i = hs := by
    have hflush : emitted w' i = emitted w1 i := by rw [emitted, flushWriter_written h2, emitted]
    rw [hflush, hall hs hw, emitted, h0]
    rfl
  rw [hem, hiff]

/-! ## The result -/

/-- An input of two pages, all dumpable, with one PT_LOAD. -/
def oneLoad (load : Phdr) : Info :=
  { pageSize := 4096, pfnCyclic := 8, elf64 := true, dumpable := fun _ => true, phdrs := [load]
    memory := List.replicate 8192 7, pageSize_pos := four_kib_pos, pfnCyclic_pos := eight_pos }

/-- `emptyWriter` at the start of the data. -/
def startWriter : Writer :=
  { emptyWriter with offSegLoad := 4096, cdPage := { cacheSize := 4096, offset := 4096 } }

/-- One PT_LOAD whose walk writes no segment before the last one. -/
theorem oneLoad_run (load : Phdr) {g : Seg} (hload : load.pType = ptLoad)
    (hpaddr : load.pPaddr ≠ notPaddr)
    (hwalk : walkLoad (oneLoad load) 0 load startWriter = some (startWriter, g))
    (hoff : paddrToOffset2 (oneLoad load) g.load.pPaddr load.pOffset ≠ 0)
    (hlen : paddrToOffset2 (oneLoad load) g.load.pPaddr load.pOffset + g.filesz ≤ 8192) :
    ∃ w', writeElfPagesCyclic (oneLoad load) 4096 emptyWriter = some w' := by
  have hmem : (oneLoad load).memory.length = 8192 := List.length_replicate
  obtain ⟨w', h, hn, hfd⟩ := @writeSegment_ok (oneLoad load) 0 load.pOffset
    { g.load with pMemsz := g.memsz, pFilesz := g.filesz, pOffset := 4096 } startWriter
    ⟨rfl, rfl, by simp [startWriter, emptyWriter]⟩ ⟨rfl, rfl⟩ hoff (hmem ▸ hlen)
  obtain ⟨w2, h2⟩ := @flushWriter_ok (oneLoad load)
    { w' with offSegLoad := w'.offSegLoad + g.filesz } hn hfd
  refine ⟨w2, ?_⟩
  have hrun : writeLoad (oneLoad load) startWriter (load, 0) =
      some { w' with offSegLoad := w'.offSegLoad + g.filesz } := by
    rw [writeLoad, if_neg (by simp [hload, hpaddr]), hwalk, Option.bind_some, lastSegment]
    simp only [show startWriter.offSegLoad = 4096 from rfl, h, Option.map_some]
  show ((List.zipIdx [load]).foldlM (writeLoad (oneLoad load)) startWriter).bind _ = _
  rw [List.zipIdx_cons, List.zipIdx_nil, List.foldlM_cons, hrun]
  exact h2

end Elf
