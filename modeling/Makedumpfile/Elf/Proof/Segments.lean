import Makedumpfile.Elf.Proof.Count
import Makedumpfile.Erase.Proof.Log

/-!
# The segments of an ELF dump file

The PT_LOAD headers written for a PT_LOAD of the input tile its range, page runs being added to the
running header as they come (`Geo`, kept by `Geo.page`). Two cases go wrong, both by the fraction of
a page: a PT_LOAD that starts and ends inside one page gets the rest of that page, and a fractional
last page that starts a new segment counts as a whole one. Otherwise the headers are exact
(`segments_iff`). The data of the segments goes through the page cache in header order (`Data`).
-/

namespace Elf

open Lib Output ByteFile

variable {c : Info}

/-! ## Tilings -/

/-- The headers follow one another from `a` to `e`. -/
def Tiles : Nat → Nat → List Phdr → Prop
  | a, e, [] => a = e
  | a, e, h :: hs => h.pPaddr = a ∧ Tiles (a + h.pMemsz) e hs

theorem Tiles.snoc {h : Phdr} : ∀ {a m : Nat} {hs : List Phdr}, Tiles a m hs → h.pPaddr = m →
    Tiles a (m + h.pMemsz) (hs ++ [h])
  | _, _, [], ht, hp => ⟨hp.trans (Eq.symm ht), by rw [Tiles, ht]⟩
  | _, _, _ :: _, ht, hp => ⟨ht.1, ht.2.snoc hp⟩

theorem Tiles.unique : ∀ {a e e' : Nat} {hs : List Phdr}, Tiles a e hs → Tiles a e' hs → e = e'
  | _, _, _, [], h, h' => h.symm.trans h'
  | _, _, _, _ :: _, h, h' => h.2.unique h'.2

/-- The address lies in the part of the segment that has data. -/
def Phdr.Backs (h : Phdr) (a : Nat) : Prop := h.pPaddr ≤ a ∧ a < h.pPaddr + h.pFilesz

/-- The headers `hs`, and the running one `g`, up to address `e`. -/
structure Geo (c : Info) (orig : Phdr) (hs : List Phdr) (g : Seg) (e : Nat) : Prop where
  tiles : Tiles orig.pPaddr g.load.pPaddr hs
  reach : g.load.pPaddr + g.memsz = e
  filesz : ∀ h ∈ hs, h.pFilesz ≤ h.pMemsz
  le : g.filesz ≤ g.memsz
  dumped : ∀ a, orig.pPaddr ≤ a → a < e → c.dumpable (a / c.pageSize) = true →
    (∃ h ∈ hs, h.Backs a) ∨ (g.load.pPaddr ≤ a ∧ a < g.load.pPaddr + g.filesz)

/-- The excluded pages at the end of the running segment are not in its data. -/
def Seg.InStep (c : Info) (g : Seg) : Prop := g.filesz + c.pageSize * g.numExcluded = g.memsz

/-- The bytes that frame `p` adds: a page that starts a segment is taken as a whole one. -/
def addedSize (c : Info) (orig : Phdr) (g : Seg) (p : Nat) : Nat :=
  if c.dumpable p = true ∧ 256 ≤ g.numExcluded then c.pageSize else sizeInLoad c orig p

theorem fracTail_lt (load : Phdr) : fracTail c load < c.pageSize := Nat.mod_lt _ c.pageSize_pos

theorem sizeInLoad_le (orig : Phdr) (p : Nat) : sizeInLoad c orig p ≤ c.pageSize := by
  have := fracTail_lt (c := c) orig
  unfold sizeInLoad
  split <;> omega

theorem page_of {p a : Nat} (h1 : p * c.pageSize ≤ a) (h2 : a < p * c.pageSize + c.pageSize) :
    a / c.pageSize = p := by
  refine Nat.div_eq_of_lt_le h1 ?_
  rw [Nat.succ_mul]
  exact h2

/-- **One frame** keeps the geometry. -/
theorem Geo.page {i p : Nat} {orig : Phdr} {hs : List Phdr} {w w' : Writer} {g g' : Seg}
    (hG : Geo c orig hs g (p * c.pageSize)) (hI : g.InStep c)
    (h : writePage c i orig (w, g) p = some (w', g')) :
    ∃ hs', w'.written = w.written ++ hs'.map (i, ·) ∧
      Geo c orig (hs ++ hs') g' (p * c.pageSize + addedSize c orig g p) ∧
      (addedSize c orig g p = c.pageSize → g'.InStep c) := by
  have hsz := sizeInLoad_le (c := c) orig p
  have hreach := hG.reach
  unfold Seg.InStep at hI ⊢
  obtain ⟨hd, rfl, rfl⟩ | ⟨hd, he, rfl, rfl⟩ | ⟨hd, he, w1, h1, rfl, rfl⟩ := writePage_cases h
  · -- excluded: only the size in memory grows
    have ha : addedSize c orig g p = sizeInLoad c orig p := by simp [addedSize, hd]
    refine ⟨[], by simp, ⟨?_, ?_, ?_, ?_, fun a h1 h2 h3 => ?_⟩, fun hps => ?_⟩
    · simpa using hG.tiles
    · rw [ha]
      show g.load.pPaddr + (g.memsz + _) = _
      omega
    · simpa using hG.filesz
    · exact Nat.le_trans hG.le (Nat.le_add_right _ _)
    · by_cases hlt : a < p * c.pageSize
      · simpa using hG.dumped a h1 hlt h3
      · rw [page_of (Nat.le_of_not_lt hlt) (by omega), hd] at h3
        cases h3
    · show g.filesz + c.pageSize * (g.numExcluded + 1) = g.memsz + sizeInLoad c orig p
      rw [Nat.mul_add]
      omega
  · -- the excluded pages before it, fewer than 256, become data
    have ha : addedSize c orig g p = sizeInLoad c orig p := by
      simp [addedSize, Nat.not_le.2 he]
    refine ⟨[], by simp, ⟨?_, ?_, ?_, ?_, fun a h1 h2 h3 => ?_⟩, fun _ => ?_⟩
    · simpa using hG.tiles
    · rw [ha]
      show g.load.pPaddr + (g.memsz + _) = _
      omega
    · simpa using hG.filesz
    · show g.filesz + (c.pageSize * g.numExcluded + _) ≤ g.memsz + _
      omega
    · simp only [List.append_nil]
      rcases Nat.lt_or_ge a g.load.pPaddr with hlt | hge
      · rcases hG.dumped a h1 (by omega) h3 with h | h
        · exact .inl h
        · omega
      · refine .inr ⟨hge, ?_⟩
        show a < g.load.pPaddr + (g.filesz + (c.pageSize * g.numExcluded + _))
        omega
    · show g.filesz + (c.pageSize * g.numExcluded + _) + c.pageSize * 0 = g.memsz + _
      omega
  · -- 256 or more excluded pages: the segment ends and the page starts a new one
    have ha : addedSize c orig g p = c.pageSize := by simp [addedSize, hd, he]
    rw [ha]
    refine ⟨[splitHeader g w.offSegLoad], by simpa using writeSegment_written h1,
      ⟨?_, ?_, fun h hm => ?_, Nat.le_refl _, fun a h1 h2 h3 => ?_⟩, fun _ => rfl⟩
    · exact hG.tiles.snoc rfl
    · show g.load.pPaddr + g.memsz + c.pageSize = _
      omega
    · rcases List.mem_append.1 hm with hm | hm
      · exact hG.filesz h hm
      · rw [List.mem_singleton.1 hm]
        exact hG.le
    · by_cases hlt : a < p * c.pageSize
      · rcases hG.dumped a h1 hlt h3 with ⟨h, hm, hb⟩ | hb
        · exact .inl ⟨h, by simp [hm], hb⟩
        · exact .inl ⟨splitHeader g w.offSegLoad, by simp, hb⟩
      · refine .inr ⟨?_, ?_⟩
        · show g.load.pPaddr + g.memsz ≤ a
          omega
        · show a < g.load.pPaddr + g.memsz + c.pageSize
          omega

theorem Geo.init (orig : Phdr) :
    Geo c orig [] (initSeg c orig) (pfnStart c orig * c.pageSize) ∧
      (initSeg c orig).InStep c := by
  have hp := c.pageSize_pos
  have hm := Nat.mod_lt orig.pPaddr hp
  have hd := Nat.div_add_mod orig.pPaddr c.pageSize
  have hreach : orig.pPaddr + (initSeg c orig).memsz = pfnStart c orig * c.pageSize := by
    have hfrac : fracHead c orig = c.pageSize - orig.pPaddr % c.pageSize := rfl
    simp only [initSeg, pfnStart, paddrToPfn]
    by_cases hc : fracHead c orig ≠ 0 ∧ fracHead c orig ≠ c.pageSize
    · rw [if_pos hc, if_pos hc, Nat.add_mul, Nat.mul_comm]
      omega
    · rw [if_neg hc, if_neg hc, Nat.add_zero, Nat.add_zero, Nat.mul_comm]
      omega
  refine ⟨⟨rfl, hreach, by simp, Nat.le_refl _, fun a h1 h2 _ => .inr ⟨h1, ?_⟩⟩, by
    simp [Seg.InStep, initSeg]⟩
  show a < orig.pPaddr + (initSeg c orig).memsz
  omega

/-! ## The whole walk -/

theorem foldl_excluded (a : Nat) : ∀ (n p : Nat) {e m : Nat}, Excluded c a p e →
    Excluded c a (p + n) ((List.range' p n).foldl (countPage c) (e, m)).1
  | 0, _, _, _, h => h
  | n + 1, p, e, m, h => by
    rw [List.range'_succ, List.foldl_cons, show p + (n + 1) = p + 1 + n by omega]
    exact foldl_excluded a n (p + 1) (h.step (n := m)).1

/-- A run of frames that are whole pages of the PT_LOAD. -/
theorem Geo.run {i : Nat} {orig : Phdr} : ∀ (n p : Nat) {hs : List Phdr} {w : Writer} {g : Seg}
    {s' : Writer × Seg}, (∀ q, p ≤ q → q < p + n → sizeInLoad c orig q = c.pageSize) →
    Geo c orig hs g (p * c.pageSize) → g.InStep c →
    (List.range' p n).foldlM (writePage c i orig) (w, g) = some s' →
    ∃ hs', s'.1.written = w.written ++ hs'.map (i, ·) ∧
      Geo c orig (hs ++ hs') s'.2 ((p + n) * c.pageSize) ∧ s'.2.InStep c
  | 0, p, hs, w, g, s', _, hG, hI, h => by
    cases h
    exact ⟨[], by simp, by simpa using hG, hI⟩
  | n + 1, p, hs, w, g, s', hsz, hG, hI, h => by
    rw [List.range'_succ, List.foldlM_cons] at h
    obtain ⟨⟨w1, g1⟩, h1, h2⟩ := Option.bind_eq_some_iff.1 h
    obtain ⟨hs1, hw1, hG1, hI1⟩ := hG.page hI h1
    have hadd : addedSize c orig g p = c.pageSize := by
      unfold addedSize
      split
      · rfl
      · exact hsz p (Nat.le_refl _) (by omega)
    rw [hadd, ← Nat.succ_mul] at hG1
    obtain ⟨hs2, hw2, hG2, hI2⟩ :=
      Geo.run n (p + 1) (fun q h1 h2 => hsz q (by omega) (by omega)) hG1 (hI1 hadd) h2
    refine ⟨hs1 ++ hs2, ?_, ?_, hI2⟩
    · rw [hw2, hw1, List.map_append, List.append_assoc]
    · rw [← List.append_assoc, show p + (n + 1) = p + 1 + n by omega]
      exact hG2

/-- A fractional last page behind a gap. -/
def gapAtTail (c : Info) (orig : Phdr) : Bool :=
  fracTail c orig ≠ 0 ∧ gapBefore c (pfnStart c orig) (pfnEnd c orig - 1) = true

/-- The address that the segments of a PT_LOAD reach. -/
def reachOf (c : Info) (orig : Phdr) : Nat :=
  if pfnEnd c orig ≤ pfnStart c orig then pfnStart c orig * c.pageSize
  else if fracTail c orig = 0 ∨ gapAtTail c orig = true then pfnEnd c orig * c.pageSize
  else (pfnEnd c orig - 1) * c.pageSize + fracTail c orig

theorem walkLoad_geo {i : Nat} {orig : Phdr} {w : Writer} {s' : Writer × Seg}
    (h : walkLoad c i orig w = some s') :
    ∃ hs, s'.1.written = w.written ++ hs.map (i, ·) ∧ Geo c orig hs s'.2 (reachOf c orig) := by
  obtain ⟨hG, hI⟩ := Geo.init (c := c) orig
  rw [walkLoad_eq, walk] at h
  unfold reachOf
  split
  · rename_i hle
    rw [Nat.sub_eq_zero_of_le hle] at h
    cases h
    exact ⟨[], by simp, hG⟩
  · rename_i hlt
    by_cases ht : fracTail c orig = 0
    · obtain ⟨hs, hw, hG', -⟩ := Geo.run _ _ (fun q _ _ => by simp [sizeInLoad, ht]) hG hI h
      rw [if_pos (.inl ht)]
      refine ⟨hs, hw, ?_⟩
      rw [show pfnEnd c orig = pfnStart c orig + (pfnEnd c orig - pfnStart c orig) by omega]
      simpa using hG'
    · -- all frames but the last are whole pages
      obtain ⟨n, hn⟩ : ∃ n, pfnEnd c orig = pfnStart c orig + n + 1 :=
        ⟨pfnEnd c orig - pfnStart c orig - 1, by omega⟩
      rw [hn, show pfnStart c orig + n + 1 - pfnStart c orig = n + 1 by omega,
        List.range'_1_concat, List.foldlM_append] at h
      obtain ⟨⟨w1, g1⟩, h1, h2⟩ := Option.bind_eq_some_iff.1 h
      obtain ⟨hs1, hw1, hG1, hI1⟩ := Geo.run n _ (fun q _ hq => by
        rw [sizeInLoad, if_neg (by omega)]) hG hI h1
      have hex : Excluded c (pfnStart c orig) (pfnStart c orig + n) g1.numExcluded := by
        have hc := congrArg Prod.fst (foldlM_writePage_count h1)
        rw [show g1.numExcluded = _ from hc]
        exact foldl_excluded _ n _ (excluded_zero _)
      obtain ⟨s2, h3, h4⟩ := Option.bind_eq_some_iff.1 h2
      cases h4
      obtain ⟨hs2, hw2, hG2, -⟩ := hG1.page hI1 h3
      refine ⟨hs1 ++ hs2, by rw [hw2, hw1, List.map_append, List.append_assoc], ?_⟩
      rw [List.nil_append] at hG2
      have hlast : sizeInLoad c orig (pfnStart c orig + n) = fracTail c orig := by
        rw [sizeInLoad, if_pos ⟨by omega, ht⟩]
      have hgap : gapAtTail c orig = true ↔
          c.dumpable (pfnStart c orig + n) = true ∧ 256 ≤ g1.numExcluded := by
        rw [gapAtTail, decide_eq_true_iff, hn, Nat.add_sub_cancel]
        constructor
        · intro hg
          have hd := (gapBefore_iff.1 hg.2).1
          exact ⟨hd, (hex.gap hd).1 hg.2⟩
        · intro hg
          exact ⟨ht, (hex.gap hg.1).2 hg.2⟩
      rw [addedSize, hlast] at hG2
      by_cases hg : gapAtTail c orig = true
      · rw [if_pos (hgap.1 hg)] at hG2
        rw [if_pos (.inr hg), hn, Nat.succ_mul]
        exact hG2
      · rw [if_neg fun hc => hg (hgap.2 hc)] at hG2
        rw [if_neg (by simp [ht, hg]), hn, Nat.add_sub_cancel]
        exact hG2

/-- The headers of a PT_LOAD tile its range, each with the data of its dumpable pages. -/
structure SegmentsOk (c : Info) (orig : Phdr) (hs : List Phdr) : Prop where
  tiles : Tiles orig.pPaddr (orig.pPaddr + orig.pMemsz) hs
  filesz : ∀ h ∈ hs, h.pFilesz ≤ h.pMemsz
  dumped : ∀ a, orig.pPaddr ≤ a → a < orig.pPaddr + orig.pMemsz →
    c.dumpable (a / c.pageSize) = true → ∃ h ∈ hs, h.Backs a

theorem writeLoad_segments {i : Nat} {orig : Phdr} {w w' : Writer}
    (hload : orig.pType = ptLoad) (hpaddr : orig.pPaddr ≠ notPaddr)
    (h : writeLoad c w (orig, i) = some w') :
    ∃ hs, w'.written = w.written ++ hs.map (i, ·) ∧
      (SegmentsOk c orig hs ↔ reachOf c orig = orig.pPaddr + orig.pMemsz) := by
  unfold writeLoad at h
  rw [if_neg (by simp [hload, hpaddr])] at h
  obtain ⟨⟨w1, g⟩, h1, h2⟩ := Option.bind_eq_some_iff.1 h
  obtain ⟨hs, hw, hG⟩ := walkLoad_geo h1
  obtain ⟨w2, h3, rfl⟩ := Option.map_eq_some_iff.1 h2
  generalize hh : ({ g.load with pMemsz := g.memsz, pFilesz := g.filesz
                                 pOffset := w1.offSegLoad } : Phdr) = hd at h3
  have hpad : hd.pPaddr = g.load.pPaddr := by rw [← hh]
  have hmem : hd.pMemsz = g.memsz := by rw [← hh]
  have hfile : hd.pFilesz = g.filesz := by rw [← hh]
  have htiles : Tiles orig.pPaddr (reachOf c orig) (hs ++ [hd]) := by
    rw [← hG.reach, ← hmem]
    exact hG.tiles.snoc hpad
  refine ⟨hs ++ [hd], ?_, fun hok => htiles.unique hok.tiles, fun hr => ⟨hr ▸ htiles, ?_, ?_⟩⟩
  · show w2.written = _
    rw [writeSegment_written h3, show w1.written = _ from hw]
    simp
  · intro h hm
    rcases List.mem_append.1 hm with hm | hm
    · exact hG.filesz h hm
    · rw [List.mem_singleton.1 hm, hmem, hfile]
      exact hG.le
  · intro a ha1 ha2 hdump
    rcases hG.dumped a ha1 (hr ▸ ha2) hdump with ⟨h, hm, hb⟩ | hb
    · exact ⟨h, by simp [hm], hb⟩
    · refine ⟨hd, by simp, ?_⟩
      unfold Phdr.Backs
      rw [hpad, hfile]
      exact hb

/-- The segments reach the end of the PT_LOAD unless it lies inside a page, or its fractional last
page stands behind a gap. -/
theorem reachOf_eq_iff {orig : Phdr} (hpos : 0 < orig.pMemsz)
    (hfit : orig.pPaddr + orig.pMemsz < 2 ^ 64) :
    reachOf c orig = orig.pPaddr + orig.pMemsz ↔
      (orig.pPaddr % c.pageSize ≠ 0 →
        c.pageSize ≤ orig.pPaddr % c.pageSize + orig.pMemsz) ∧ gapAtTail c orig = false := by
  have hp := c.pageSize_pos
  have hu : u64 (orig.pPaddr + orig.pMemsz) = orig.pPaddr + orig.pMemsz := Nat.mod_eq_of_lt hfit
  have hfrac : fracTail c orig = (orig.pPaddr + orig.pMemsz) % c.pageSize := by
    rw [fracTail, hu]
  have hle : orig.pPaddr / c.pageSize ≤ (orig.pPaddr + orig.pMemsz) / c.pageSize :=
    Nat.div_le_div_right (Nat.le_add_right _ _)
  have hstart : pfnStart c orig = orig.pPaddr / c.pageSize +
      (if orig.pPaddr % c.pageSize ≠ 0 then 1 else 0) := by
    rw [pfnStart_eq, ceil_eq]
  have hend : pfnEnd c orig = (orig.pPaddr + orig.pMemsz) / c.pageSize +
      (if (orig.pPaddr + orig.pMemsz) % c.pageSize ≠ 0 then 1 else 0) := by
    rw [pfnEnd_eq, ceil_eq, hu]
  have hA := Nat.div_add_mod' orig.pPaddr c.pageSize
  have hE := Nat.div_add_mod' (orig.pPaddr + orig.pMemsz) c.pageSize
  have hAm := Nat.mod_lt orig.pPaddr hp
  have hEm := Nat.mod_lt (orig.pPaddr + orig.pMemsz) hp
  have hgap : (orig.pPaddr + orig.pMemsz) % c.pageSize = 0 → gapAtTail c orig = false := by
    intro h
    simp [gapAtTail, hfrac, h]
  unfold reachOf
  rw [hstart, hend, hfrac]
  generalize (orig.pPaddr + orig.pMemsz) % c.pageSize = r at *
  generalize orig.pPaddr % c.pageSize = t at *
  generalize (orig.pPaddr + orig.pMemsz) / c.pageSize = q at *
  generalize orig.pPaddr / c.pageSize = a at *
  generalize gapAtTail c orig = tail at *
  rcases Nat.lt_or_eq_of_le hle with hlt | rfl
  · -- a page boundary lies in the range
    have hmul : (a + 1) * c.pageSize ≤ q * c.pageSize := Nat.mul_le_mul_right _ hlt
    rw [Nat.succ_mul] at hmul
    have hcond : t ≠ 0 → c.pageSize ≤ t + orig.pMemsz := fun _ => by omega
    by_cases hr : r = 0
    · refine iff_of_true ?_ ⟨hcond, hgap hr⟩
      have hd : (if t ≠ 0 then 1 else 0) ≤ 1 := by split <;> omega
      generalize (if t ≠ 0 then 1 else 0) = d at hd ⊢
      rw [if_neg (not_not.2 hr), Nat.add_zero]
      by_cases hq : q ≤ a + d
      · -- nothing but the rest of the first page
        rw [if_pos hq, show a + d = q by omega]
        omega
      · rw [if_neg hq, if_pos (.inl hr)]
        omega
    · rw [if_pos hr, if_neg (by split <;> omega)]
      cases tail with
      | true =>
        rw [if_pos (.inr rfl), Nat.succ_mul]
        simp
        omega
      | false =>
        rw [if_neg (by simp [hr]), Nat.add_sub_cancel]
        exact iff_of_true (by omega) ⟨hcond, rfl⟩
  · -- it starts and ends in the same page
    have hr : r ≠ 0 := by omega
    rw [if_pos hr]
    by_cases ht : t = 0
    · rw [if_neg (not_not.2 ht), Nat.add_zero, if_neg (by omega)]
      cases tail with
      | true =>
        rw [if_pos (.inr rfl), Nat.succ_mul]
        simp
        omega
      | false =>
        rw [if_neg (by simp [hr]), Nat.add_sub_cancel]
        exact iff_of_true (by omega) ⟨fun h => absurd ht h, rfl⟩
    · rw [if_pos ht, if_pos (Nat.le_refl _), Nat.succ_mul]
      refine iff_of_false (by omega) fun h => ?_
      have := h.1 ht
      omega

end Elf
