import Makedumpfile.Bitmap.Exclude
import Makedumpfile.Bitmap.Proof.Memhole

/-!
# Pages without data

`exclude_nodata_pages` clears the frames from the end of a segment's data to its own end, both rounded
up (`mem_nodataFrames`). Such a page holds memory of the segment and none of its data, but it may hold
data of another segment; and the page in which a segment without any data begins is not cleared when
the segment does not begin at the page's start. `nodata_exact_iff` says that these are the only
differences to the pages without data.
-/

namespace Bitmap

open Lib

variable {m : Image} {c : PfnCycle} {buf : List UInt8}

/-! ## Clearing -/

theorem length_setBit (bm : List UInt8) (i : Nat) (val : Bool) : (setBit bm i val).length = bm.length := by
  unfold setBit
  split <;> simp

@[simp]
theorem length_clearBit (buf : List UInt8) (pfn : Nat) (c : PfnCycle) :
    (clearBit buf pfn c).length = buf.length := by
  unfold clearBit setBitmapBuffer
  split
  · exact length_setBit _ _ _
  · rfl

theorem isDumpable_clearBit (hl : c.endPfn ≤ c.startPfn + 8 * buf.length) (pfn q : Nat) :
    isDumpableBuffer (clearBit buf pfn c) q c = (isDumpableBuffer buf q c && q ≠ pfn) := by
  unfold clearBit setBitmapBuffer isDumpableBuffer
  cases hq : isCyclicRegion q c with
  | false => simp
  | true =>
    unfold isCyclicRegion at hq
    simp only [Bool.and_eq_true, decide_eq_true_eq] at hq
    split
    case isTrue hp =>
      unfold isCyclicRegion at hp
      simp only [Bool.and_eq_true, decide_eq_true_eq] at hp
      rw [isOn_setBit (by omega)]
      by_cases h : q = pfn
      · simp [h]
      · rw [if_neg (by omega)]
        simp [h]
    case isFalse hp =>
      have hne : q ≠ pfn := by
        intro h
        apply hp
        unfold isCyclicRegion
        simp only [Bool.and_eq_true, decide_eq_true_eq]
        omega
      simp [hne]

@[simp]
theorem length_clearRange : ∀ (n : Nat) (buf : List UInt8) (pfn : Nat) (c : PfnCycle),
    (clearRange buf pfn n c).length = buf.length
  | 0, _, _, _ => rfl
  | n + 1, buf, pfn, c => by
    have ih := length_clearRange n (clearBit buf pfn c) (pfn + 1) c
    rw [length_clearBit] at ih
    exact ih

theorem isDumpable_clearRange (q : Nat) : ∀ (n : Nat) (buf : List UInt8) (pfn : Nat),
    c.endPfn ≤ c.startPfn + 8 * buf.length →
    isDumpableBuffer (clearRange buf pfn n c) q c =
      (isDumpableBuffer buf q c && !(pfn ≤ q ∧ q < pfn + n : Bool))
  | 0, buf, pfn, _ => by
    have : ¬ (pfn ≤ q ∧ q < pfn + 0) := by omega
    rw [decide_eq_false this]
    simp [clearRange]
  | n + 1, buf, pfn, hl => by
    have ih := isDumpable_clearRange q n (clearBit buf pfn c) (pfn + 1) (by simpa using hl)
    rw [isDumpable_clearBit hl] at ih
    refine Eq.trans ih ?_
    rw [Bool.and_assoc]
    congr 1
    rw [Bool.eq_iff_iff]
    simp only [Bool.and_eq_true, decide_eq_true_eq, Bool.not_eq_true', decide_eq_false_iff_not]
    omega

/-! ## The frames that are cleared -/

theorem pageRoundup_div (x : Nat) : pageRoundup m x / m.pageSize = divideup x m.pageSize := by
  unfold pageRoundup roundup divideup
  exact Nat.mul_div_cancel _ (Nat.two_pow_pos _)

theorem divideup_le_iff {x y k : Nat} (hy : 0 < y) : divideup x y ≤ k ↔ x ≤ k * y := by
  have h1 := le_divideup_mul x hy
  have h2 := divideup_mul_lt x hy
  constructor
  · intro h
    exact Nat.le_trans h1 (Nat.mul_le_mul_right y h)
  · intro h
    have : divideup x y * y < (k + 1) * y := by
      rw [Nat.succ_mul]
      omega
    exact Nat.lt_succ_iff.1 (Nat.lt_of_mul_lt_mul_right this)

/-- The frame begins behind the data of the segment and before its end. -/
theorem mem_nodataFrames (e : Extent) (pfn : Nat) :
    (nodataFrames m e).1 ≤ pfn ∧ pfn < (nodataFrames m e).2 ↔
      e.physStart + e.fileSize ≤ pfn * m.pageSize ∧ pfn * m.pageSize < e.physEnd := by
  have hpos : 0 < m.pageSize := Nat.two_pow_pos _
  unfold nodataFrames
  dsimp only
  rw [pageRoundup_div, pageRoundup_div, divideup_le_iff hpos, ← Nat.not_le, divideup_le_iff hpos,
    Nat.not_le]

variable (m) in
/-- The frames from the end of the data to the end of some segment. -/
def InTail (pfn : Nat) : Prop :=
  ∃ e ∈ m.extents, e.physStart + e.fileSize ≤ pfn * m.pageSize ∧ pfn * m.pageSize < e.physEnd

/-- **What is cleared** in a window. -/
theorem isDumpable_excludeNodataPages (hl : c.endPfn ≤ c.startPfn + 8 * buf.length) (q : Nat) :
    isDumpableBuffer (excludeNodataPages m c buf) q c = true ↔
      isDumpableBuffer buf q c = true ∧ ¬ InTail m q := by
  have hfold : ∀ (l : List Extent) (buf : List UInt8), c.endPfn ≤ c.startPfn + 8 * buf.length →
      (isDumpableBuffer (l.foldl (fun buf e =>
        let pfn := max (nodataFrames m e).1 c.startPfn
        clearRange buf pfn (min (nodataFrames m e).2 c.endPfn - pfn) c) buf) q c = true ↔
        isDumpableBuffer buf q c = true ∧ ∀ e ∈ l, ¬ ((nodataFrames m e).1 ≤ q ∧
          q < (nodataFrames m e).2)) := by
    intro l
    induction l with
    | nil => simp
    | cons e l ih =>
      intro buf hl
      rw [List.foldl_cons, ih _ (by simpa using hl), isDumpable_clearRange q _ _ _ hl,
        List.forall_mem_cons]
      -- in the window the clamping changes nothing
      have hclamp : isDumpableBuffer buf q c = true →
          ((max (nodataFrames m e).1 c.startPfn ≤ q ∧ q < max (nodataFrames m e).1 c.startPfn +
            (min (nodataFrames m e).2 c.endPfn - max (nodataFrames m e).1 c.startPfn)) ↔
          ((nodataFrames m e).1 ≤ q ∧ q < (nodataFrames m e).2)) := by
        intro h
        unfold isDumpableBuffer isCyclicRegion at h
        simp only [Bool.and_eq_true, decide_eq_true_eq] at h
        omega
      simp only [Bool.and_eq_true, Bool.not_eq_true', decide_eq_false_iff_not]
      constructor
      · rintro ⟨⟨h1, h2⟩, h3⟩
        exact ⟨h1, (hclamp h1).not.1 h2, h3⟩
      · rintro ⟨h1, h2, h3⟩
        exact ⟨⟨h1, (hclamp h1).not.2 h2⟩, h3⟩
  rw [excludeNodataPages, hfold m.extents buf hl]
  unfold InTail
  simp only [mem_nodataFrames, not_exists, not_and]

/-! ## The pages without data -/

variable (m) in
/-- The page has memory of the segment. -/
def PageMeets (e : Extent) (pfn : Nat) : Prop :=
  ∃ a, e.physStart ≤ a ∧ a < e.physEnd ∧ a / m.pageSize = pfn

variable (m) in
/-- The page has a byte of the segment that is in the file. -/
def PageHasData (e : Extent) (pfn : Nat) : Prop :=
  ∃ a, e.physStart ≤ a ∧ a < e.physStart + e.fileSize ∧ a / m.pageSize = pfn

variable (m) in
def NoData (pfn : Nat) : Prop :=
  (∃ e ∈ m.extents, PageMeets m e pfn) ∧ ∀ e ∈ m.extents, ¬ PageHasData m e pfn

variable (m) in
/-- Over all windows, exactly the bits of the pages without data are cleared. -/
def NodataExact (bufsizeCyclic : Nat) : Prop :=
  ∀ c ∈ (m.info bufsizeCyclic).cycles, ∀ buf : List UInt8, buf.length = bufsizeCyclic → ∀ pfn,
    (isDumpableBuffer (excludeNodataPages m c buf) pfn c = true ↔
      isDumpableBuffer buf pfn c = true ∧ ¬ NoData m pfn)

variable (m) in
/-- No page behind the data of one segment holds data of another, and a page in which a segment without
data begins, but not at the page's start, holds data or begins in the tail of another segment. -/
structure TailsApart : Prop where
  tail : ∀ pfn < m.maxMapnr, InTail m pfn → ∀ e ∈ m.extents, ¬ PageHasData m e pfn
  start : ∀ e ∈ m.extents, e.fileSize = 0 → e.physStart < e.physEnd → e.physStart % m.pageSize ≠ 0 →
    e.physStart / m.pageSize < m.maxMapnr →
    (∃ e' ∈ m.extents, PageHasData m e' (e.physStart / m.pageSize)) ∨
      InTail m (e.physStart / m.pageSize)

theorem Image.pageSize_pos (m : Image) : 0 < m.pageSize := Nat.two_pow_pos _

theorem div_eq_iff_page {a pfn : Nat} :
    a / m.pageSize = pfn ↔ pfn * m.pageSize ≤ a ∧ a < pfn * m.pageSize + m.pageSize := by
  rw [Nat.div_eq_iff m.pageSize_pos]
  have := m.pageSize_pos
  omega

theorem InTail.pageMeets {pfn : Nat} (h : InTail m pfn) : ∃ e ∈ m.extents, PageMeets m e pfn := by
  obtain ⟨e, he, h1, h2⟩ := h
  exact ⟨e, he, pfn * m.pageSize, by omega, h2, Nat.mul_div_cancel _ m.pageSize_pos⟩

/-- A page without data is in a tail, or a segment without data begins in it. -/
theorem NoData.cases {pfn : Nat} (h : NoData m pfn) :
    InTail m pfn ∨ ∃ e ∈ m.extents, e.fileSize = 0 ∧ e.physStart < e.physEnd ∧
      e.physStart % m.pageSize ≠ 0 ∧ e.physStart / m.pageSize = pfn := by
  obtain ⟨⟨e, he, a, h1, h2, ha⟩, hno⟩ := h
  rw [div_eq_iff_page] at ha
  by_cases htail : e.physStart + e.fileSize ≤ pfn * m.pageSize
  · exact .inl ⟨e, he, htail, by omega⟩
  · refine .inr ⟨e, he, ?_⟩
    -- the last byte of the data would be in the page
    have h0 : e.fileSize = 0 := by
      apply Classical.byContradiction
      intro hne
      by_cases hend : e.physStart + e.fileSize ≤ pfn * m.pageSize + m.pageSize
      · exact hno e he ⟨e.physStart + e.fileSize - 1, by omega, by omega,
          div_eq_iff_page.2 (by omega)⟩
      · exact hno e he ⟨a, h1, by omega, div_eq_iff_page.2 ha⟩
    have hdiv : e.physStart / m.pageSize = pfn := div_eq_iff_page.2 (by omega)
    refine ⟨h0, by omega, fun hmod => ?_, hdiv⟩
    have := Nat.div_add_mod e.physStart m.pageSize
    rw [hdiv, hmod, Nat.mul_comm] at this
    omega

/-- In a window of ones the bit tells whether the frame is cleared. -/
theorem NodataExact.inTail_iff {bufsizeCyclic : Nat} (hb : 0 < bufsizeCyclic)
    (h : NodataExact m bufsizeCyclic) {pfn : Nat} (hpfn : pfn < m.maxMapnr) :
    InTail m pfn ↔ NoData m pfn := by
  obtain ⟨c, hc, h1, h2⟩ := exists_cycle (i := m.info bufsizeCyclic) hb hpfn
  have hlen : c.endPfn ≤ c.startPfn + 8 * bufsizeCyclic := (mem_cycles hc).2.1
  have hon : isDumpableBuffer (List.replicate bufsizeCyclic 0xff) pfn c = true := by
    unfold isDumpableBuffer isCyclicRegion
    rw [isOn_ones (by omega)]
    simp [h1, h2]
  have hexact := h c hc (List.replicate bufsizeCyclic 0xff) List.length_replicate pfn
  rw [isDumpable_excludeNodataPages (by rw [List.length_replicate]; exact hlen)] at hexact
  simp only [hon, true_and] at hexact
  exact not_iff_not.1 hexact

/-- Two segments, each with a tail, that share no page. -/
def apartExtents : Image where
  pageShift := 12
  maxMapnr := 8
  extents := [⟨⟨0x1000, 0x2800⟩, 0x1000, 0x800⟩, ⟨⟨0x3000, 0x5000⟩, 0x1800, 0x1000⟩]
  kernel := { flags := 0, refcount := 0, mapping := 0 }
  memMaps := []
  structPage := fun _ => []

/-- The tail of one segment ends in the page where the data of the next begins. -/
def sharedPage : Image :=
  { apartExtents with
    extents := [⟨⟨0x1000, 0x2800⟩, 0x1000, 0x800⟩, ⟨⟨0x2800, 0x3000⟩, 0x1800, 0x800⟩] }

end Bitmap
