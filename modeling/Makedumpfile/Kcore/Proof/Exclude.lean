import Mathlib.Data.List.Pairwise
import Makedumpfile.Kcore.Exclude

/-!
# Excluding ranges keeps the mapping

What is left of a segment is described by the pieces `cutSegment` and `tempSeg`: together they cover
the segment without the range (`cut_covers`), also when the range goes beyond the segment and one of
the pieces ends before it begins. Their places in the file are right (`SegOk`) unless the head of the
segment is cut off (`StepOk.head`): there `file_offset` is kept. The table gets only the last piece
behind a split, so the piece that has memory must be the last (`StepOk.last`). In a run whose steps
are of this kind every remaining address keeps its place in the file (`excludeAll_keeps`).
-/

namespace Kcore

open Lib

variable {K : Nat} {off : Nat → Nat} {s g t : PtLoadSegment} {loads l : List PtLoadSegment}
  {start end_ : Nat}

def PtLoadSegment.Covers (s : PtLoadSegment) (a : Nat) : Prop := s.physStart ≤ a ∧ a < s.physEnd

instance (a : Nat) : Decidable (s.Covers a) := inferInstanceAs (Decidable (_ ∧ _))

def Covered (loads : List PtLoadSegment) (a : Nat) : Prop := ∃ s ∈ loads, s.Covers a

/-- A segment with the virtual addresses `paddr_to_vaddr` gives, with all of it in the file, and its
addresses at the places `off`. It may end before it begins: then it covers nothing. -/
structure SegOk (K : Nat) (off : Nat → Nat) (s : PtLoadSegment) : Prop where
  start_lt : s.physStart + K < 2 ^ 64
  end_lt : s.physEnd + K < 2 ^ 64
  virtStart : s.virtStart = s.physStart + K
  virtEnd : s.virtEnd = s.physEnd + K
  fileSize : s.fileSize = u64sub s.physEnd s.physStart
  offset : ∀ a, s.Covers a → (a - s.physStart + s.fileOffset) % 2 ^ 64 = off a

/-- A range `[start, end)` of physical addresses that `paddr_to_vaddr` maps without wrap. -/
structure RangeOk (K start end_ : Nat) : Prop where
  le : start ≤ end_
  end_lt : end_ + K < 2 ^ 64

/-- Where a call does what it should: the range is not the head of a segment, and a segment that goes
on behind the range is the last one in the table to be split. -/
structure StepOk (K : Nat) (loads : List PtLoadSegment) (r : Nat × Nat) : Prop where
  head : ∀ s ∈ loads, ¬ (r.1 = s.physStart ∧ r.1 < r.2 ∧ r.2 < s.physEnd)
  last : loads.Pairwise fun g s => Splits K r.1 r.2 g → r.2 < g.physEnd → ¬ Splits K r.1 r.2 s

/-! ## One segment -/

theorem paddrToVaddr_of_lt {a : Nat} (h : a + K < 2 ^ 64) : paddrToVaddr K a = a + K :=
  Nat.mod_eq_of_lt h

theorem SegOk.overlaps_iff (h : SegOk K off s) (hr : RangeOk K start end_) :
    Overlaps K start end_ s ↔ start < s.physEnd ∧ s.physStart < end_ := by
  obtain ⟨h1, h2⟩ := hr
  unfold Overlaps
  rw [paddrToVaddr_of_lt (by omega), paddrToVaddr_of_lt h2, h.virtStart, h.virtEnd]
  omega

theorem SegOk.splits_iff (h : SegOk K off s) (hr : RangeOk K start end_) :
    Splits K start end_ s ↔
      start < s.physEnd ∧ s.physStart < end_ ∧ start ≠ s.physStart ∧ end_ ≠ s.physEnd := by
  have hov := h.overlaps_iff hr
  obtain ⟨h1, h2⟩ := hr
  unfold Splits
  rw [hov, paddrToVaddr_of_lt (by omega), paddrToVaddr_of_lt h2, h.virtStart, h.virtEnd]
  omega

/-- The piece behind a split. -/
theorem SegOk.tempSeg (h : SegOk K off s) (hr : RangeOk K start end_)
    (hs : Splits K start end_ s) : SegOk K off (tempSeg K end_ s) := by
  rw [h.splits_iff hr] at hs
  obtain ⟨h1, h2⟩ := hr
  have hv : paddrToVaddr K end_ = end_ + K := paddrToVaddr_of_lt h2
  have hlt := h.start_lt
  constructor
  case start_lt => rwa [tempSeg_physStart]
  case end_lt =>
    rw [tempSeg_physEnd]
    exact h.end_lt
  case virtStart => rw [tempSeg_virtStart, tempSeg_physStart, hv]
  case virtEnd => rw [tempSeg_virtEnd, tempSeg_physEnd, h.virtEnd]
  case fileSize => rw [tempSeg_fileSize, tempSeg_physEnd, tempSeg_physStart]
  case offset =>
    intro a ha
    unfold PtLoadSegment.Covers at ha
    rw [tempSeg_physStart, tempSeg_physEnd] at ha
    rw [tempSeg_physStart, tempSeg_fileOffset, ← h.offset a ⟨by omega, ha.2⟩, hv, h.virtStart,
      add_u64sub_mod (by omega) hlt]
    congr 1
    omega

/-- A segment that is cut at its end. -/
theorem SegOk.cutEnd (h : SegOk K off s) (hr : RangeOk K start end_) (ho : start < s.physEnd)
    {size : Nat} (hsize : size = u64sub start s.physStart) :
    SegOk K off { s with virtEnd := paddrToVaddr K start, physEnd := start, fileSize := size } := by
  obtain ⟨h1, h2⟩ := hr
  have hv : paddrToVaddr K start = start + K := paddrToVaddr_of_lt (by omega)
  constructor <;> simp only [-Nat.reducePow]
  case start_lt => exact h.start_lt
  case end_lt => omega
  case virtStart => exact h.virtStart
  case virtEnd => exact hv
  case fileSize => exact hsize
  case offset =>
    intro a ha
    simp only [PtLoadSegment.Covers] at ha
    exact h.offset a ⟨ha.1, by omega⟩

/-- A segment that is cut, the head apart. -/
theorem SegOk.cutSegment (h : SegOk K off s) (hr : RangeOk K start end_)
    (hh : ¬ (start = s.physStart ∧ start < end_ ∧ end_ < s.physEnd)) :
    SegOk K off (cutSegment K start end_ s) := by
  have hov := h.overlaps_iff hr
  have hsp := h.splits_iff hr
  have h1 := hr.le
  have h2 := hr.end_lt
  have hv1 : paddrToVaddr K start = start + K := paddrToVaddr_of_lt (by omega)
  have hv2 : paddrToVaddr K end_ = end_ + K := paddrToVaddr_of_lt h2
  have hs := h.start_lt
  have he := h.end_lt
  have hfs := h.fileSize
  unfold Kcore.cutSegment
  by_cases ho : Overlaps K start end_ s
  · have ho' := hov.1 ho
    by_cases hc : Splits K start end_ s
    · simp only [if_pos ho, if_pos hc]
      refine h.cutEnd hr ho'.1 ?_
      rw [tempSeg_fileSize, hfs, u64sub_sub_left (by omega) (by omega) (by omega),
        u64sub_sub_left (by omega) (by omega) (by omega)]
    · have hc' := mt hsp.2 hc
      by_cases hne : paddrToVaddr K start ≠ s.virtStart
      · simp only [if_pos ho, if_neg hc, if_pos hne]
        rw [hv1, h.virtStart] at hne
        have hend : end_ = s.physEnd := by omega
        refine h.cutEnd hr ho'.1 ?_
        rw [hfs, hend, u64sub_sub_left (by omega) (by omega) (by omega)]
      · simp only [if_pos ho, if_neg hc, if_neg hne]
        rw [hv1, h.virtStart] at hne
        constructor <;> simp only [-Nat.reducePow]
        case start_lt => exact h2
        case end_lt => exact he
        case virtStart => exact hv2
        case virtEnd => exact h.virtEnd
        case fileSize =>
          have hstart : start = s.physStart := by omega
          rw [hfs, hstart, u64sub_sub_right (by omega) (by omega) (by omega)]
        case offset =>
          -- nothing is left: the range begins at the segment and does not end in it
          intro a ha
          simp only [PtLoadSegment.Covers] at ha
          omega
  · simp only [if_neg ho]
    exact h

/-- The pieces cover the segment without the range. -/
theorem cut_covers (h : SegOk K off s) (hr : RangeOk K start end_) (a : Nat) :
    (cutSegment K start end_ s).Covers a ∨ Splits K start end_ s ∧ (tempSeg K end_ s).Covers a ↔
      s.Covers a ∧ ¬ (start ≤ a ∧ a < end_) := by
  have hov := h.overlaps_iff hr
  have hsp := h.splits_iff hr
  obtain ⟨h1, h2⟩ := hr
  have hv1 : paddrToVaddr K start = start + K := paddrToVaddr_of_lt (by omega)
  unfold PtLoadSegment.Covers cutSegment
  dsimp only
  by_cases ho : Overlaps K start end_ s
  · have ho' := hov.1 ho
    by_cases hc : Splits K start end_ s
    · have hc' := hsp.1 hc
      rw [if_pos ho, if_pos hc]
      simp only [hc, tempSeg_physStart, tempSeg_physEnd, true_and]
      omega
    · have hc' := mt hsp.2 hc
      by_cases hne : paddrToVaddr K start ≠ s.virtStart
      · rw [if_pos ho, if_neg hc, if_pos hne]
        simp only [hc, false_and, or_false]
        rw [hv1, h.virtStart] at hne
        omega
      · rw [if_pos ho, if_neg hc, if_neg hne]
        simp only [hc, false_and, or_false]
        rw [hv1, h.virtStart] at hne
        omega
  · have hc : ¬ Splits K start end_ s := fun hc => ho hc.1
    simp only [if_neg ho, hc, false_and, or_false]
    rw [hov] at ho
    omega

/-! ## The table -/

section Loop

variable (K start end_)

theorem excludeLoop_fst : ∀ (i : Nat) (temp : Option (Nat × PtLoadSegment)) (l : List PtLoadSegment),
    (excludeLoop K start end_ i temp l).1 = l.map (cutSegment K start end_)
  | _, _, [] => rfl
  | i, temp, s :: l => by
    unfold excludeLoop
    simp only [List.map_cons]
    rw [excludeLoop_fst]

/-- The piece at the end of the loop comes from a split. -/
theorem excludeLoop_snd : ∀ (i : Nat) (temp : Option (Nat × PtLoadSegment)) (l : List PtLoadSegment)
    {x : Nat × PtLoadSegment}, (excludeLoop K start end_ i temp l).2 = some x →
    temp = some x ∨ ∃ s ∈ l, Splits K start end_ s ∧ x.2 = tempSeg K end_ s
  | _, _, [], _, h => .inl h
  | i, temp, s :: l, x, h => by
    unfold excludeLoop at h
    rcases excludeLoop_snd _ _ l h with h | ⟨g, hg, hsp, hx⟩
    · by_cases hs : Splits K start end_ s
      · rw [if_pos hs] at h
        cases h
        exact .inr ⟨s, List.mem_cons_self, hs, rfl⟩
      · rw [if_neg hs] at h
        exact .inl h
    · exact .inr ⟨g, List.mem_cons_of_mem _ hg, hsp, hx⟩

theorem excludeLoop_no_split : ∀ (i : Nat) (temp : Option (Nat × PtLoadSegment))
    {l : List PtLoadSegment}, (∀ s ∈ l, ¬ Splits K start end_ s) →
    (excludeLoop K start end_ i temp l).2 = temp
  | _, _, [], _ => rfl
  | i, temp, s :: l, h => by
    unfold excludeLoop
    simp only [if_neg (h s List.mem_cons_self)]
    exact excludeLoop_no_split _ _ fun g hg => h g (List.mem_cons_of_mem _ hg)

/-- The last split is the one that is kept. -/
theorem excludeLoop_last {g : PtLoadSegment} {l : List PtLoadSegment}
    (hg : Splits K start end_ g) (hl : ∀ s ∈ l, ¬ Splits K start end_ s) :
    ∀ (i : Nat) (temp : Option (Nat × PtLoadSegment)) (m : List PtLoadSegment),
      ∃ k, (excludeLoop K start end_ i temp (m ++ g :: l)).2 = some (k, tempSeg K end_ g)
  | i, temp, [] => by
    rw [List.nil_append]
    unfold excludeLoop
    simp only [if_pos hg]
    exact ⟨i + 1, excludeLoop_no_split K start end_ _ _ hl⟩
  | i, temp, s :: m => by
    rw [List.cons_append]
    unfold excludeLoop
    exact excludeLoop_last hg hl _ _ m

/-- The segments of the new table. -/
theorem mem_excludeSegment (loads : List PtLoadSegment) (t : PtLoadSegment) :
    t ∈ excludeSegment K start end_ loads ↔ (∃ s ∈ loads, t = cutSegment K start end_ s) ∨
      ∃ k, (excludeLoop K start end_ 0 none loads).2 = some (k, t) := by
  have hfst := excludeLoop_fst K start end_ 0 none loads
  have hmap : t ∈ (excludeLoop K start end_ 0 none loads).1 ↔
      ∃ s ∈ loads, t = cutSegment K start end_ s := by
    rw [hfst, List.mem_map]
    simp only [eq_comm]
  unfold excludeSegment
  rw [← hmap]
  cases hx : excludeLoop K start end_ 0 none loads with
  | mk l temp =>
    cases temp with
    | none => simp
    | some x =>
      obtain ⟨k, u⟩ := x
      have hl : t ∈ l ↔ t ∈ l.take k ∨ t ∈ l.drop k := by
        rw [← List.mem_append, List.take_append_drop]
      simp only [List.mem_append, List.mem_cons, hl, Option.some.injEq, Prod.mk.injEq,
        exists_eq_left', eq_comm (a := u)]
      tauto

end Loop

theorem excludeSegment_segOk (h : ∀ s ∈ loads, SegOk K off s) (hr : RangeOk K start end_)
    (hok : StepOk K loads (start, end_)) : ∀ t ∈ excludeSegment K start end_ loads, SegOk K off t := by
  intro t ht
  rcases (mem_excludeSegment K start end_ loads t).1 ht with ⟨s, hs, rfl⟩ | ⟨k, hk⟩
  · exact (h s hs).cutSegment hr (hok.head s hs)
  · rcases excludeLoop_snd K start end_ 0 none loads hk with hn | ⟨s, hs, hsp, hx⟩
    · cases hn
    · rw [show t = tempSeg K end_ s from hx]
      exact (h s hs).tempSeg hr hsp

theorem excludeSegment_covered (h : ∀ s ∈ loads, SegOk K off s) (hr : RangeOk K start end_)
    (hok : StepOk K loads (start, end_)) (a : Nat) :
    Covered (excludeSegment K start end_ loads) a ↔ Covered loads a ∧ ¬ (start ≤ a ∧ a < end_) := by
  constructor
  · rintro ⟨t, ht, hta⟩
    rcases (mem_excludeSegment K start end_ loads t).1 ht with ⟨s, hs, rfl⟩ | ⟨k, hk⟩
    · obtain ⟨h1, h2⟩ := (cut_covers (h s hs) hr a).1 (.inl hta)
      exact ⟨⟨s, hs, h1⟩, h2⟩
    · rcases excludeLoop_snd K start end_ 0 none loads hk with hn | ⟨s, hs, hsp, hx⟩
      · cases hn
      · rw [show t = tempSeg K end_ s from hx] at hta
        obtain ⟨h1, h2⟩ := (cut_covers (h s hs) hr a).1 (.inr ⟨hsp, hta⟩)
        exact ⟨⟨s, hs, h1⟩, h2⟩
  · rintro ⟨⟨s, hs, hsa⟩, hna⟩
    rcases (cut_covers (h s hs) hr a).2 ⟨hsa, hna⟩ with hc | ⟨hsp, hc⟩
    · exact ⟨_, (mem_excludeSegment K start end_ loads _).2 (.inl ⟨s, hs, rfl⟩), hc⟩
    · -- the piece has memory, so it is from the last split
      obtain ⟨m, l, rfl⟩ := List.append_of_mem hs
      have hlt : end_ < s.physEnd := by
        unfold PtLoadSegment.Covers at hc
        rw [tempSeg_physStart, tempSeg_physEnd] at hc
        omega
      have hlast := (List.pairwise_cons.1 (List.pairwise_append.1 hok.last).2.1).1
      obtain ⟨k, hk⟩ :=
        excludeLoop_last K start end_ hsp (fun g hg => hlast g hg hsp hlt) 0 none m
      exact ⟨_, (mem_excludeSegment K start end_ _ _).2 (.inr ⟨k, hk⟩), hc⟩

/-! ## Places in the file -/

theorem SegOk.found_iff (h : SegOk K off s) (a : Nat) :
    (s.physStart ≤ a ∧ a < (s.physStart + s.fileSize) % 2 ^ 64) ↔ s.Covers a := by
  have h1 := h.start_lt
  have h2 := h.end_lt
  have hend : (s.physStart + s.fileSize) % 2 ^ 64 = s.physEnd := by
    rw [h.fileSize, u64sub_eq (by omega) (by omega)]
    split <;> omega
  rw [hend]
  rfl

theorem paddrToOffset_eq (h : ∀ s ∈ loads, SegOk K off s) {a : Nat} (ha : Covered loads a) :
    paddrToOffset loads a = off a := by
  unfold paddrToOffset
  cases hf : loads.find? fun s =>
      s.physStart ≤ a ∧ a < (s.physStart + s.fileSize) % 2 ^ 64 with
  | none =>
    obtain ⟨s, hs, hsa⟩ := ha
    have := List.find?_eq_none.1 hf s hs
    exact absurd (decide_eq_true (((h s hs).found_iff a).2 hsa)) this
  | some s =>
    have hs := List.mem_of_find?_eq_some hf
    have hsa := List.find?_some hf
    exact (h s hs).offset a (((h s hs).found_iff a).1 (of_decide_eq_true hsa))

/-! ## Runs -/

/-- The table at the start: disjoint segments with the virtual addresses `paddr_to_vaddr` gives, and
all of them in the file. -/
structure TableOk (K : Nat) (loads : List PtLoadSegment) : Prop where
  disjoint : loads.Pairwise fun s t => s.physEnd ≤ t.physStart ∨ t.physEnd ≤ s.physStart
  le : ∀ s ∈ loads, s.physStart ≤ s.physEnd
  end_lt : ∀ s ∈ loads, s.physEnd + K < 2 ^ 64
  virtStart : ∀ s ∈ loads, s.virtStart = s.physStart + K
  virtEnd : ∀ s ∈ loads, s.virtEnd = s.physEnd + K
  fileSize : ∀ s ∈ loads, s.fileSize = s.physEnd - s.physStart

theorem TableOk.unique (h : TableOk K loads) (hs : s ∈ loads) (ht : t ∈ loads) {a : Nat}
    (hsa : s.Covers a) (hta : t.Covers a) : s = t := by
  apply Classical.byContradiction
  intro hne
  unfold PtLoadSegment.Covers at hsa hta
  have hsymm : Std.Symm fun s t : PtLoadSegment =>
      s.physEnd ≤ t.physStart ∨ t.physEnd ≤ s.physStart := ⟨fun _ _ h => h.symm⟩
  rcases h.disjoint.forall hs ht hne with h | h <;> omega

theorem TableOk.segOk (h : TableOk K loads) : ∀ s ∈ loads, SegOk K (paddrToOffset loads) s := by
  intro s hs
  have h1 := h.le s hs
  have h2 := h.end_lt s hs
  have hsize : ∀ t ∈ loads, (t.physStart + t.fileSize) % 2 ^ 64 = t.physEnd := by
    intro t ht
    have h1 := h.le t ht
    have h2 := h.end_lt t ht
    rw [h.fileSize t ht]
    omega
  constructor
  case start_lt => omega
  case end_lt => exact h2
  case virtStart => exact h.virtStart s hs
  case virtEnd => exact h.virtEnd s hs
  case fileSize => rw [h.fileSize s hs, u64sub_of_le (by omega) h1]
  case offset =>
    intro a ha
    unfold paddrToOffset
    cases hf : loads.find? fun s =>
        s.physStart ≤ a ∧ a < (s.physStart + s.fileSize) % 2 ^ 64 with
    | none =>
      have hnone := List.find?_eq_none.1 hf s hs
      rw [hsize s hs] at hnone
      exact absurd (decide_eq_true ha) hnone
    | some t =>
      have ht := List.mem_of_find?_eq_some hf
      have hta := List.find?_some hf
      rw [hsize t ht] at hta
      rw [h.unique hs ht ha (of_decide_eq_true hta)]

/-- Every call of the run does what it should. -/
def RunOk (K : Nat) : List PtLoadSegment → List (Nat × Nat) → Prop
  | _, [] => True
  | loads, r :: ranges => StepOk K loads r ∧ RunOk K (excludeSegment K r.1 r.2 loads) ranges

theorem RunOk.of_append : ∀ {ranges rest : List (Nat × Nat)} {loads : List PtLoadSegment},
    RunOk K loads (ranges ++ rest) → RunOk K loads ranges
  | [], _, _, _ => trivial
  | _ :: _, _, _, h => ⟨h.1, RunOk.of_append h.2⟩

/-- The new table covers what the old one covers without the ranges, and every address left has its old
place in the file. -/
structure Keeps (loads : List PtLoadSegment) (ranges : List (Nat × Nat))
    (loads' : List PtLoadSegment) : Prop where
  covered : ∀ a, Covered loads' a ↔ Covered loads a ∧ ∀ r ∈ ranges, ¬ (r.1 ≤ a ∧ a < r.2)
  offset : ∀ a, Covered loads' a → paddrToOffset loads' a = paddrToOffset loads a
  fileSize : ∀ s ∈ loads', s.fileSize = u64sub s.physEnd s.physStart

theorem excludeAll_segOk : ∀ {ranges : List (Nat × Nat)} {loads : List PtLoadSegment},
    (∀ s ∈ loads, SegOk K off s) → (∀ r ∈ ranges, RangeOk K r.1 r.2) → RunOk K loads ranges →
    (∀ s ∈ excludeAll K loads ranges, SegOk K off s) ∧
      ∀ a, Covered (excludeAll K loads ranges) a ↔
        Covered loads a ∧ ∀ r ∈ ranges, ¬ (r.1 ≤ a ∧ a < r.2)
  | [], loads, h, _, _ => ⟨h, fun a => by simp [excludeAll]⟩
  | r :: ranges, loads, h, hr, hrun => by
    have hr1 := hr r List.mem_cons_self
    have hstep := excludeSegment_segOk h hr1 hrun.1
    have hcov := excludeSegment_covered h hr1 hrun.1
    obtain ⟨h1, h2⟩ :=
      excludeAll_segOk hstep (fun q hq => hr q (List.mem_cons_of_mem _ hq)) hrun.2
    refine ⟨h1, fun a => ?_⟩
    rw [show excludeAll K loads (r :: ranges) =
      excludeAll K (excludeSegment K r.1 r.2 loads) ranges from rfl, h2 a, hcov a]
    simp only [List.forall_mem_cons]
    tauto

/-- **Excluding ranges keeps the mapping** in every state of a run whose calls are of the kind
`StepOk`. -/
theorem excludeAll_keeps (ht : TableOk K loads) {ranges : List (Nat × Nat)}
    (hr : ∀ r ∈ ranges, RangeOk K r.1 r.2) (hrun : RunOk K loads ranges) :
    ∀ done rest, ranges = done ++ rest → Keeps loads done (excludeAll K loads done) := by
  rintro done rest rfl
  obtain ⟨h1, h2⟩ := excludeAll_segOk ht.segOk
    (fun r hr' => hr r (List.mem_append_left _ hr')) hrun.of_append
  exact ⟨h2, fun a ha => paddrToOffset_eq h1 ha, fun s hs => (h1 s hs).fileSize⟩

/-- `PAGE_OFFSET` of x86_64. -/
def pageOffsetX8664 : Nat := 0xffff888000000000

/-- Two segments of 16 KiB, the upper one first. -/
def twoSegments : List PtLoadSegment :=
  [⟨0x8000, 0xc000, 0x8000 + pageOffsetX8664, 0xc000 + pageOffsetX8664, 0x5000, 0x4000⟩,
    ⟨0x1000, 0x5000, 0x1000 + pageOffsetX8664, 0x5000 + pageOffsetX8664, 0x1000, 0x4000⟩]

theorem tableOk_twoSegments : TableOk pageOffsetX8664 twoSegments := by
  constructor <;> simp [twoSegments, pageOffsetX8664]

/-- A part from the middle of one segment to beyond the other, and the end of what is left. -/
theorem excludeAll_keeps_twoSegments :
    Keeps twoSegments [(0x3000, 0xd000), (0x2000, 0x3000)]
      (excludeAll pageOffsetX8664 twoSegments [(0x3000, 0xd000), (0x2000, 0x3000)]) := by
  have hr : ∀ r ∈ [((0x3000 : Nat), (0xd000 : Nat)), (0x2000, 0x3000)],
      RangeOk pageOffsetX8664 r.1 r.2 := by
    intro r hr
    simp only [List.mem_cons, List.not_mem_nil, or_false] at hr
    rcases hr with rfl | rfl
    · exact ⟨by decide, by decide⟩
    · exact ⟨by decide, by decide⟩
  have hrun : RunOk pageOffsetX8664 twoSegments [(0x3000, 0xd000), (0x2000, 0x3000)] :=
    ⟨⟨by decide +kernel, by decide +kernel⟩, ⟨by decide +kernel, by decide +kernel⟩, trivial⟩
  exact excludeAll_keeps tableOk_twoSegments hr hrun _ [] (List.append_nil _).symm

/-- The head of a segment is cut off, but the segment keeps its place in the file. -/
theorem not_keeps_head : TableOk pageOffsetX8664 twoSegments ∧ RangeOk pageOffsetX8664 0x1000 0x2000 ∧
    ¬ Keeps twoSegments [(0x1000, 0x2000)]
      (excludeAll pageOffsetX8664 twoSegments [(0x1000, 0x2000)]) := by
  refine ⟨tableOk_twoSegments, ⟨by decide, by decide⟩, fun h => ?_⟩
  have hcov : Covered (excludeAll pageOffsetX8664 twoSegments [(0x1000, 0x2000)]) 0x2000 :=
    (h.covered 0x2000).2 ⟨⟨_, List.mem_cons_of_mem _ List.mem_cons_self, by decide, by decide⟩, by simp⟩
  have := h.offset 0x2000 hcov
  revert this
  decide +kernel

end Kcore
