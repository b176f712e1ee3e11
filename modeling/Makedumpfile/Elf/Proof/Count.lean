import Makedumpfile.Elf.Pages
import Makedumpfile.Lib.Fold

/-!
# The count of program headers

`get_loads_dumpfile_cyclic` counts the segments that `write_elf_pages_cyclic` writes. Both walk the
same frames and split at the same ones (`writePage_count`): one segment for each PT_LOAD and one
more for each dumpable page behind 256 excluded ones (`gaps`). They differ on a PT_LOAD without a
physical address, which is counted and not written; and the count is kept in an `int`, in ELF32
even in the 16 bits of `e_phnum` (`count_agrees_iff`).
-/

namespace Elf

open Lib Output

variable {c : Info}

/-! ## The frames of a walk -/

/-- The frames of a PT_LOAD, in order. -/
def walk (c : Info) (load : Phdr) : List Nat :=
  List.range' (pfnStart c load) (pfnEnd c load - pfnStart c load)

theorem cyclesOf_pages (load : Phdr) :
    (cyclesOf c load).flatMap (PfnCycle.pages (pfnStart c load)) = walk c load :=
  PfnCycle.forEachCycle_pages c.pfnCyclic_pos true _ _

theorem walkLoad_eq (i : Nat) (orig : Phdr) (w : Writer) :
    walkLoad c i orig w = (walk c orig).foldlM (writePage c i orig) (w, initSeg c orig) := by
  rw [walkLoad, foldlM_flatMap, cyclesOf_pages]

theorem countLoad_eq (n : Nat) (load : Phdr) :
    countLoad c n load = ((walk c load).foldl (countPage c) (0, n + 1)).2 := by
  rw [countLoad, ← List.foldl_flatMap, cyclesOf_pages]

/-! ## Splits -/

/-- `p` is dumpable and the 256 frames before it, all of the walk from `a`, are excluded. -/
def gapBefore (c : Info) (a p : Nat) : Bool :=
  c.dumpable p && decide (a + pfnExcluded ≤ p) &&
    (List.range' (p - pfnExcluded) pfnExcluded).all fun k => !c.dumpable k

/-- The splits of a PT_LOAD. -/
def gaps (c : Info) (load : Phdr) : Nat := (walk c load).countP (gapBefore c (pfnStart c load))

/-- The segments that the PT_LOADs of the input have in the dump file. -/
def segmentCount (c : Info) : Nat :=
  ((c.phdrs.filter (·.pType = ptLoad)).map fun load => 1 + gaps c load).sum

theorem gapBefore_iff {a p : Nat} :
    gapBefore c a p = true ↔ c.dumpable p = true ∧ a + 256 ≤ p ∧
      ∀ k, p - 256 ≤ k → k < p → c.dumpable k = false := by
  simp only [gapBefore, Bool.and_eq_true, decide_eq_true_eq, List.all_eq_true,
    List.mem_range'_1, Bool.not_eq_true', and_assoc]
  have h256 : pfnExcluded = 256 := rfl
  rw [h256]
  refine and_congr_right fun _ => and_congr_right fun hp => ?_
  constructor
  · intro h k h1 h2
    exact h k ⟨h1, by omega⟩
  · intro h k hk
    exact h k hk.1 (by omega)

/-- `num_excluded` is the number of excluded frames right before frame `p` of a walk from `a`. -/
def Excluded (c : Info) (a p e : Nat) : Prop :=
  a + e ≤ p ∧ (∀ k, p - e ≤ k → k < p → c.dumpable k = false) ∧
    (a + e < p → c.dumpable (p - e - 1) = true)

theorem Excluded.gap {a p e : Nat} (h : Excluded c a p e) (hd : c.dumpable p = true) :
    gapBefore c a p = true ↔ pfnExcluded ≤ e := by
  obtain ⟨hle, hall, hlast⟩ := h
  rw [gapBefore_iff]
  show _ ↔ 256 ≤ e
  constructor
  · rintro ⟨-, hp, hk⟩
    apply Classical.byContradiction
    intro hlt
    have h1 := hlast (by omega)
    rw [hk (p - e - 1) (by omega) (by omega)] at h1
    cases h1
  · intro he
    exact ⟨hd, by omega, fun k h1 h2 => hall k (by omega) h2⟩

theorem Excluded.step {a p e n : Nat} (h : Excluded c a p e) :
    Excluded c a (p + 1) (countPage c (e, n) p).1 ∧
      (countPage c (e, n) p).2 = n + (if gapBefore c a p then 1 else 0) := by
  unfold countPage
  cases hd : c.dumpable p with
  | false =>
    have hg : gapBefore c a p = false := by simp [gapBefore, hd]
    obtain ⟨hle, hall, hlast⟩ := h
    refine ⟨⟨by simp; omega, fun k h1 h2 => ?_, fun h1 => ?_⟩, by simp [hg]⟩
    · simp only [Bool.not_false, if_true] at h1
      by_cases hk : k = p
      · rw [hk]
        exact hd
      · exact hall k (by omega) (by omega)
    · simp only [Bool.not_false, if_true] at h1 ⊢
      rw [show p + 1 - (e + 1) - 1 = p - e - 1 by omega]
      exact hlast (by omega)
  | true =>
    have hle := h.1
    refine ⟨⟨by simp; omega, fun k h1 h2 => ?_, fun h1 => ?_⟩, ?_⟩
    · simp only [Bool.not_true, Bool.false_eq_true, if_false] at h1
      omega
    · simpa using hd
    · simp only [Bool.not_true, Bool.false_eq_true, if_false, ge_iff_le]
      by_cases hg : pfnExcluded ≤ e
      · rw [if_pos hg, if_pos ((h.gap hd).2 hg)]
      · rw [if_neg hg, if_neg fun hc => hg ((h.gap hd).1 hc)]
        rfl

theorem foldl_countPage (a : Nat) : ∀ (n p : Nat) {e m : Nat}, Excluded c a p e →
    ((List.range' p n).foldl (countPage c) (e, m)).2 =
      m + (List.range' p n).countP (gapBefore c a)
  | 0, _, _, _, _ => rfl
  | n + 1, p, e, m, h => by
    obtain ⟨h1, h2⟩ := h.step (n := m)
    rw [List.range'_succ, List.foldl_cons, List.countP_cons]
    have := foldl_countPage a n (p + 1) (m := (countPage c (e, m) p).2) h1
    rw [Prod.eta] at this
    rw [this, h2]
    omega

theorem excluded_zero (a : Nat) : Excluded c a a 0 :=
  ⟨Nat.le_refl _, fun k h1 h2 => by omega, fun h => by omega⟩

theorem countLoad_gaps (n : Nat) (load : Phdr) : countLoad c n load = n + (1 + gaps c load) := by
  rw [countLoad_eq, walk, foldl_countPage _ _ _ (excluded_zero _), gaps, walk]
  omega

theorem numNewLoad_eq : numNewLoad c = segmentCount c := by
  have h : ∀ (l : List Phdr) (n : Nat),
      l.foldl (fun n load => if load.pType ≠ ptLoad then n else countLoad c n load) n =
        n + ((l.filter (·.pType = ptLoad)).map fun load => 1 + gaps c load).sum := by
    intro l
    induction l with
    | nil => intro n; rfl
    | cons p l ih =>
      intro n
      rw [List.foldl_cons, ih]
      by_cases hp : p.pType = ptLoad
      · simp only [hp, ne_eq, not_true, if_false, decide_true, List.filter_cons_of_pos,
          List.map_cons, List.sum_cons, countLoad_gaps]
        omega
      · simp [hp]
  rw [numNewLoad, h, segmentCount, Nat.zero_add]

/-! ## Headers written -/

theorem copyPages_written {paddr off size : Nat} {w w' : Writer}
    (h : copyPages c paddr off size w = some w') : w'.written = w.written := by
  induction size using Nat.strongRecOn generalizing paddr off w with
  | ind size ih =>
    rw [copyPages] at h
    split at h
    · cases h
      rfl
    · dsimp only at h
      split at h
      · cases h
      · split at h
        · cases h
        · have := c.pageSize_pos
          exact (ih (size - c.pageSize) (by omega) h).trans rfl

theorem writeElfPhdr_written {i : Nat} {load : Phdr} {w w' : Writer}
    (h : writeElfPhdr c i load w = some w') : w'.written = w.written ++ [(i, load)] := by
  unfold writeElfPhdr at h
  split at h
  · cases h
  · cases h
    rfl

theorem writeSegment_written {i off : Nat} {load : Phdr} {w w' : Writer}
    (h : writeSegment c i off load w = some w') : w'.written = w.written ++ [(i, load)] := by
  obtain ⟨w1, h1, h2⟩ := Option.bind_eq_some_iff.1 h
  rw [← writeElfPhdr_written h1]
  split at h2
  · cases h2
    rfl
  · unfold writeElfLoadSegment at h2
    dsimp only at h2
    split at h2
    · cases h2
    · exact copyPages_written h2

/-- What one frame does: it is excluded, it continues the segment, or it starts a new one. -/
theorem writePage_cases {i : Nat} {orig : Phdr} {w w' : Writer} {g g' : Seg} {p : Nat}
    (h : writePage c i orig (w, g) p = some (w', g')) :
    (c.dumpable p = false ∧ w' = w ∧
      g' = { g with numExcluded := g.numExcluded + 1, memsz := g.memsz + sizeInLoad c orig p }) ∨
    (c.dumpable p = true ∧ g.numExcluded < 256 ∧ w' = w ∧
      g' = { g with
        memsz := g.memsz + sizeInLoad c orig p
        filesz := g.filesz + (c.pageSize * g.numExcluded + sizeInLoad c orig p)
        numExcluded := 0 }) ∨
    (c.dumpable p = true ∧ 256 ≤ g.numExcluded ∧ ∃ w1,
      writeSegment c i orig.pOffset (splitHeader g w.offSegLoad) w = some w1 ∧
      w' = { w1 with offSegLoad := w1.offSegLoad + g.filesz } ∧
      g' = nextSeg c (splitHeader g w.offSegLoad)) := by
  simp only [writePage] at h
  cases hd : c.dumpable p with
  | false =>
    rw [hd] at h
    cases h
    exact .inl ⟨rfl, rfl, rfl⟩
  | true =>
    rw [hd] at h
    simp only [Bool.not_true, Bool.false_eq_true, if_false] at h
    split at h
    · rename_i he
      cases h
      refine .inr (.inl ⟨rfl, by omega, rfl, ?_⟩)
      rw [he, Nat.mul_zero, Nat.zero_add]
    · split at h
      · rename_i he
        cases h
        exact .inr (.inl ⟨rfl, he, rfl, rfl⟩)
      · rename_i he
        obtain ⟨w1, h1, h2⟩ := Option.map_eq_some_iff.1 h
        cases h2
        exact .inr (.inr ⟨rfl, Nat.le_of_not_lt he, w1, h1, rfl, rfl⟩)

/-- A frame splits the segment in the writer exactly when it does in the count. -/
theorem writePage_count {i : Nat} {orig : Phdr} {s s' : Writer × Seg} {p : Nat}
    (h : writePage c i orig s p = some s') :
    (s'.2.numExcluded, s'.1.written.length) =
      countPage c (s.2.numExcluded, s.1.written.length) p := by
  obtain ⟨w, g⟩ := s
  obtain ⟨w', g'⟩ := s'
  obtain ⟨hd, rfl, rfl⟩ | ⟨hd, he, rfl, rfl⟩ | ⟨hd, he, w1, h1, rfl, rfl⟩ := writePage_cases h
  · simp [countPage, hd]
  · simp [countPage, hd, pfnExcluded, Nat.not_le.2 he]
  · simp [countPage, hd, pfnExcluded, he, writeSegment_written h1, nextSeg]

theorem foldlM_writePage_count {i : Nat} {orig : Phdr} : ∀ {l : List Nat} {s s' : Writer × Seg},
    l.foldlM (writePage c i orig) s = some s' →
    (s'.2.numExcluded, s'.1.written.length) =
      l.foldl (countPage c) (s.2.numExcluded, s.1.written.length)
  | [], _, _, h => by
    cases h
    rfl
  | p :: l, s, s', h => by
    rw [List.foldlM_cons] at h
    obtain ⟨s1, h1, h2⟩ := Option.bind_eq_some_iff.1 h
    rw [foldlM_writePage_count h2, writePage_count h1]
    rfl

/-- The PT_LOADs that the writer skips. -/
def skipped (p : Phdr) : Bool := p.pType = ptLoad ∧ p.pPaddr = notPaddr

theorem writeLoad_count {w w' : Writer} {p : Phdr} {i : Nat} (h : writeLoad c w (p, i) = some w') :
    w'.written.length = w.written.length +
      (if p.pType = ptLoad ∧ p.pPaddr ≠ notPaddr then 1 + gaps c p else 0) := by
  unfold writeLoad at h
  split at h
  · rename_i hs
    cases h
    rw [if_neg (by rintro ⟨h1, h2⟩; exact hs.elim (fun h => h h1) h2)]
    rfl
  · rename_i hs
    obtain ⟨⟨w1, g⟩, h1, h2⟩ := Option.bind_eq_some_iff.1 h
    rw [walkLoad_eq] at h1
    have hc := foldlM_writePage_count h1
    obtain ⟨w2, h3, rfl⟩ := Option.map_eq_some_iff.1 h2
    have hg := foldl_countPage (c := c) (pfnStart c p) (pfnEnd c p - pfnStart c p) (pfnStart c p)
      (m := w.written.length) (excluded_zero _)
    have hw : w1.written.length = w.written.length + gaps c p := by
      rw [gaps, walk, ← hg]
      exact congrArg Prod.snd hc
    simp only [writeSegment_written h3, List.length_append, List.length_singleton, hw]
    rw [if_pos (by rw [not_or] at hs; exact ⟨not_not.1 hs.1, hs.2⟩)]
    omega

theorem foldlM_writeLoad_count : ∀ (l : List Phdr) (k : Nat) {w w' : Writer},
    (l.zipIdx k).foldlM (writeLoad c) w = some w' →
    w'.written.length = w.written.length + (l.map fun p =>
      if p.pType = ptLoad ∧ p.pPaddr ≠ notPaddr then 1 + gaps c p else 0).sum
  | [], _, _, _, h => by
    cases h
    rfl
  | p :: l, k, w, w', h => by
    rw [List.zipIdx_cons, List.foldlM_cons] at h
    obtain ⟨w1, h1, h2⟩ := Option.bind_eq_some_iff.1 h
    rw [foldlM_writeLoad_count l (k + 1) h2, writeLoad_count h1, List.map_cons, List.sum_cons]
    omega

theorem ceil_eq (x : Nat) :
    x / c.pageSize + (if x % c.pageSize ≠ 0 then 1 else 0) =
      (x + c.pageSize - 1) / c.pageSize := by
  have hp := c.pageSize_pos
  have hd := Nat.div_add_mod x c.pageSize
  have hm := Nat.mod_lt x hp
  symm
  split
  · refine Nat.div_eq_of_lt_le ?_ ?_
    · rw [Nat.add_mul, Nat.mul_comm]
      omega
    · rw [Nat.succ_mul, Nat.add_mul, Nat.mul_comm]
      omega
  · refine Nat.div_eq_of_lt_le ?_ ?_
    · rw [Nat.add_zero, Nat.mul_comm]
      omega
    · rw [Nat.succ_mul, Nat.mul_comm]
      omega

theorem pfnStart_eq (load : Phdr) :
    pfnStart c load = (load.pPaddr + c.pageSize - 1) / c.pageSize := by
  have hp := c.pageSize_pos
  have hm := Nat.mod_lt load.pPaddr hp
  rw [← ceil_eq, pfnStart, paddrToPfn, fracHead]
  congr 1
  by_cases h : load.pPaddr % c.pageSize = 0
  · simp [h]
  · rw [if_pos (by omega), if_pos h]

theorem pfnEnd_eq (load : Phdr) :
    pfnEnd c load = (u64 (load.pPaddr + load.pMemsz) + c.pageSize - 1) / c.pageSize := by
  rw [← ceil_eq, pfnEnd, paddrToPfn, fracTail]

/-- A PT_LOAD at the last address has no frame. -/
theorem gaps_notPaddr {load : Phdr} (h : load.pPaddr = notPaddr) : gaps c load = 0 := by
  have hle : pfnEnd c load ≤ pfnStart c load := by
    rw [pfnStart_eq, pfnEnd_eq, h]
    refine Nat.div_le_div_right (Nat.sub_le_sub_right (Nat.add_le_add_right ?_ _) _)
    unfold u64 notPaddr
    omega
  rw [gaps, walk, Nat.sub_eq_zero_of_le hle]
  rfl

theorem segmentCount_split : segmentCount c = (c.phdrs.map fun p =>
    if p.pType = ptLoad ∧ p.pPaddr ≠ notPaddr then 1 + gaps c p else 0).sum +
      c.phdrs.countP skipped := by
  unfold segmentCount
  generalize c.phdrs = l
  induction l with
  | nil => rfl
  | cons p l ih =>
    by_cases ht : p.pType = ptLoad
    · by_cases hn : p.pPaddr = notPaddr
      · have hs : skipped p = true := by simp [skipped, ht, hn]
        rw [List.filter_cons_of_pos (by simpa using ht), List.map_cons, List.sum_cons, ih,
          gaps_notPaddr hn, List.map_cons, List.sum_cons, if_neg (fun h => h.2 hn),
          List.countP_cons_of_pos hs]
        omega
      · have hs : ¬ skipped p = true := by simp [skipped, hn]
        rw [List.filter_cons_of_pos (by simpa using ht), List.map_cons, List.sum_cons, ih,
          List.map_cons, List.sum_cons, if_pos ⟨ht, hn⟩, List.countP_cons_of_neg hs]
        omega
    · have hs : ¬ skipped p = true := by simp [skipped, ht]
      rw [List.filter_cons_of_neg (by simpa using ht), ih, List.map_cons, List.sum_cons,
        if_neg (fun h => ht h.1), List.countP_cons_of_neg hs]
      omega

theorem flushWriter_written {w w' : Writer} (h : flushWriter c w = some w') :
    w'.written = w.written := by
  unfold flushWriter at h
  split at h
  · cases h
  · split at h
    · cases h
    · cases h
      rfl

/-- The writer writes the counted segments but those of the skipped PT_LOADs. -/
theorem written_length {off : Nat} {w w' : Writer} (h0 : w.written = [])
    (h : writeElfPagesCyclic c off w = some w') :
    w'.written.length + c.phdrs.countP skipped = segmentCount c := by
  obtain ⟨w1, h1, h2⟩ := Option.bind_eq_some_iff.1 h
  rw [flushWriter_written h2, foldlM_writeLoad_count _ 0 h1, segmentCount_split]
  simp only [h0, List.length_nil]
  omega

/-! ## The result -/

/-- The count is the number `n` of headers written, and the header area announced and reserved is
that of PT_NOTE and `n` PT_LOADs. -/
def CountAgrees (c : Info) (n : Nat) : Prop :=
  getLoadsDumpfileCyclic c = n ∧ ∀ l, writeElfHeader c = some l →
    l.phdrEnd = ehdrSize c + phdrSize c * (1 + n) ∧ l.shInfo.getD l.ePhnum = 1 + n

theorem countAgrees_of_fits {n : Nat} (h : numNewLoad c = n)
    (hfit : 1 + n < if c.elf64 then 2 ^ 31 else 2 ^ 16) : CountAgrees c n := by
  have hlt : 1 + n < 2 ^ 31 := by
    split at hfit <;> omega
  have hget : getLoadsDumpfileCyclic c = n := by
    rw [getLoadsDumpfileCyclic, h, int32_of_fits (by omega) (by omega)]
  refine ⟨hget, fun l hl => ?_⟩
  unfold writeElfHeader at hl
  simp only [hget] at hl
  split at hl
  · cases hl
  · have hadd : int32 ((n : Int) + 1) = 1 + n := by
      rw [int32_of_fits (by omega) (by omega)]
      omega
    split at hl
    · rw [← Option.some.inj hl]
      have hpn : ((pnXnum : Nat) : Int) = 65535 := rfl
      dsimp only
      rw [hadd, hpn]
      refine ⟨rfl, ?_⟩
      by_cases hx : (1 : Int) + n ≥ 65535
      · rw [if_pos hx, if_pos rfl]
        rfl
      · rw [if_neg hx, Int.emod_eq_of_lt (by omega) (by omega), if_neg (by omega)]
        rfl
    · rename_i h64
      rw [if_neg h64] at hfit
      rw [← Option.some.inj hl]
      dsimp only
      rw [Int.emod_eq_of_lt (by omega) (by omega)]
      exact ⟨rfl, rfl⟩

theorem fits_of_countAgrees {n k : Nat} (hk : k < 2 ^ 31) (h : numNewLoad c = n + k)
    (ha : CountAgrees c n) : k = 0 ∧ 1 + n < if c.elf64 then 2 ^ 31 else 2 ^ 16 := by
  obtain ⟨hget, harea⟩ := ha
  have hint : int32 ((n + k : Nat) : Int) = n := by rw [← hget, getLoadsDumpfileCyclic, h]
  obtain ⟨rfl, hn⟩ : k = 0 ∧ n < 2 ^ 31 := by
    unfold int32 at hint
    omega
  refine ⟨rfl, ?_⟩
  by_cases hz : n = 0
  · subst hz
    split <;> omega
  unfold writeElfHeader at harea
  rw [hget, if_neg (by omega)] at harea
  cases h64 : c.elf64 with
  | true =>
    simp only [h64, if_true] at harea ⊢
    have := (harea _ rfl).1
    simp only [ehdrSize, phdrSize, h64, if_true, int32] at this
    omega
  | false =>
    simp only [h64, Bool.false_eq_true, if_false] at harea ⊢
    have := (harea _ rfl).1
    simp only [ehdrSize, phdrSize, h64, Bool.false_eq_true, if_false] at this
    omega

/-- **Header count**: the number `get_loads_dumpfile_cyclic` returns and the area reserved for it are
those of the headers written exactly when every PT_LOAD has a physical address and the number, with
PT_NOTE, fits an `int` (ELF64) or the 16 bits of `e_phnum` (ELF32). -/
theorem count_agrees_iff (c : Info) (off : Nat) (w w' : Writer) (h0 : w.written = [])
    (hphnum : c.phdrs.length < 2 ^ 31) (h : writeElfPagesCyclic c off w = some w') :
    CountAgrees c w'.written.length ↔
      (∀ p ∈ c.phdrs, p.pType = ptLoad → p.pPaddr ≠ notPaddr) ∧
        1 + segmentCount c < if c.elf64 then 2 ^ 31 else 2 ^ 16 := by
  have hcount := written_length h0 h
  have hzero : c.phdrs.countP skipped = 0 ↔
      ∀ p ∈ c.phdrs, p.pType = ptLoad → p.pPaddr ≠ notPaddr := by
    simp [List.countP_eq_zero, skipped]
  rw [← hzero]
  constructor
  · intro ha
    have hle := List.countP_le_length (p := skipped) (l := c.phdrs)
    have hnew : numNewLoad c = w'.written.length + c.phdrs.countP skipped := by
      rw [numNewLoad_eq, hcount]
    obtain ⟨hk, hfit⟩ := fits_of_countAgrees (by omega) hnew ha
    refine ⟨hk, ?_⟩
    rwa [← hcount, hk]
  · rintro ⟨hk, hfit⟩
    rw [← hcount, hk] at hfit
    exact countAgrees_of_fits (by rw [numNewLoad_eq, ← hcount, hk, Nat.add_zero]) hfit

/-- An input of one page of memory, with the program headers `phdrs`; nothing is dumpable. -/
def onePage (phdrs : List Phdr) : Info :=
  { pageSize := 4096, pfnCyclic := 8, elf64 := true, dumpable := fun _ => false, phdrs
    memory := [], pageSize_pos := four_kib_pos, pfnCyclic_pos := eight_pos }

/-- Empty caches, with room for the headers at offset 64. -/
def emptyWriter : Writer :=
  { cdHeader := { cacheSize := 4096, offset := 64 }, cdPage := { cacheSize := 4096 }
    out := {}, filter := {}, offSegLoad := 0 }

theorem count_agrees_one_load :
    ∃ w', writeElfPagesCyclic (onePage [{ pType := 1, pPaddr := 0, pFilesz := 0, pMemsz := 4096 }])
        4096 emptyWriter = some w' ∧
      CountAgrees (onePage [{ pType := 1, pPaddr := 0, pFilesz := 0, pMemsz := 4096 }])
        w'.written.length := by
  obtain ⟨w', h⟩ : ∃ w', writeElfPagesCyclic
      (onePage [{ pType := 1, pPaddr := 0, pFilesz := 0, pMemsz := 4096 }])
      4096 emptyWriter = some w' := by
    rw [← Option.isSome_iff_exists]
    simp only [writeElfPagesCyclic, onePage, List.zipIdx_cons, List.zipIdx_nil, List.foldlM_cons,
      List.foldlM_nil, writeLoad, walkLoad_eq]
    rfl
  exact ⟨w', h, (count_agrees_iff _ 4096 emptyWriter _ rfl (by decide) h).2
    ⟨by simp [onePage, notPaddr], by decide⟩⟩

/-- A PT_LOAD without a physical address, as in `/proc/kcore`, is counted and not written. -/
theorem count_differs_notPaddr :
    ∃ w', writeElfPagesCyclic (onePage [{ pType := 1, pPaddr := 0, pFilesz := 0, pMemsz := 4096 },
        { pType := 1, pPaddr := notPaddr, pFilesz := 4096, pMemsz := 4096 }])
        4096 emptyWriter = some w' ∧
      ¬ CountAgrees (onePage [{ pType := 1, pPaddr := 0, pFilesz := 0, pMemsz := 4096 },
        { pType := 1, pPaddr := notPaddr, pFilesz := 4096, pMemsz := 4096 }])
        w'.written.length := by
  obtain ⟨w', h⟩ : ∃ w', writeElfPagesCyclic
      (onePage [{ pType := 1, pPaddr := 0, pFilesz := 0, pMemsz := 4096 },
        { pType := 1, pPaddr := notPaddr, pFilesz := 4096, pMemsz := 4096 }])
      4096 emptyWriter = some w' := by
    rw [← Option.isSome_iff_exists]
    simp only [writeElfPagesCyclic, onePage, List.zipIdx_cons, List.zipIdx_nil, List.foldlM_cons,
      List.foldlM_nil, writeLoad, walkLoad_eq]
    rfl
  refine ⟨w', h, fun ha => ?_⟩
  have hn := written_length rfl h
  rw [← numNewLoad_eq] at hn
  exact absurd (fits_of_countAgrees (k := 1) (by decide) hn.symm ha).1 (by decide)

end Elf
