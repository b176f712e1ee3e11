import Makedumpfile.Bitmap.Proof.Memhole

/-!
# The count of the pages on a memory hole

`create_bitmap_from_memhole` sets the bits of a segment's frames once or, when the frames begin inside
a byte and end in the same byte, twice: the loop over the edge before the first whole byte and the one
over the edge after the last then both run over all of them (`memholeLoad_count`). The bits are right
all the same, but such frames are taken from `pfn_memhole` twice (`memhole_exact_iff`).
-/

namespace Bitmap

open Lib ByteFile

variable {i : Info} {c : PfnCycle}

/-- The frames of a segment in a window. -/
def Info.clip (i : Info) (c : PfnCycle) (l : PtLoad) : Nat × Nat :=
  (max (i.paddrToPfn l.physStart) c.startPfn, min (i.paddrToPfn l.physEnd) c.endPfn)

/-- They begin inside a byte and end in the same byte. -/
def Info.InsideByte (i : Info) (c : PfnCycle) (l : PtLoad) : Prop :=
  (i.clip c l).1 < (i.clip c l).2 ∧ (i.clip c l).1 % 8 ≠ 0 ∧
    (i.clip c l).1 / 8 = (i.clip c l).2 / 8

instance (l : PtLoad) : Decidable (i.InsideByte c l) := inferInstanceAs (Decidable (_ ∧ _))

/-- How much a segment takes from the count. -/
def Info.counted (i : Info) (c : PfnCycle) (l : PtLoad) : Nat :=
  ((i.clip c l).2 - (i.clip c l).1) * if i.InsideByte c l then 2 else 1

theorem counted_eq (i : Info) (c : PfnCycle) (l : PtLoad) {s e : Nat}
    (hs : max (i.paddrToPfn l.physStart) c.startPfn = s)
    (he : min (i.paddrToPfn l.physEnd) c.endPfn = e) :
    i.counted c l = (e - s) * if s < e ∧ s % 8 ≠ 0 ∧ s / 8 = e / 8 then 2 else 1 := by
  subst hs he
  rfl

/-- Bit by bit. -/
theorem setBits_count (count : Bool) : ∀ (n a : Nat) (w : Window), c.startPfn ≤ a → a + n ≤ c.endPfn →
    (tryEach (setBitCount count c) (List.range' a n) w).2.pfnMemhole =
      w.pfnMemhole - if count then (n : Int) else 0
  | 0, a, w, _, _ => by simp [tryEach]
  | n + 1, a, w, hs, he => by
    have hin : isCyclicRegion a c = true := by
      simp only [isCyclicRegion, Bool.and_eq_true, decide_eq_true_eq]
      omega
    rw [List.range'_succ, tryEach, setBitCount, setBitmapBuffer, if_pos hin]
    dsimp only
    rw [setBits_count count n (a + 1) _ (by omega) (by omega)]
    cases count with
    | false => simp
    | true =>
      simp only [↓reduceIte]
      omega

/-- The frames that the three parts of the loop run over, in all. -/
theorem edges_count {cs s e : Nat} (h8 : 8 ∣ cs) (hs : cs ≤ s) (he : s < e) :
    let up := min (roundup s 8) e
    let down := max (PfnCycle.round e 8) s
    (up - s) + ((down - cs) / 8 - (up - cs) / 8) * 8 + (e - down) =
      (e - s) * if s % 8 ≠ 0 ∧ s / 8 = e / 8 then 2 else 1 := by
  obtain ⟨m, rfl⟩ := h8
  unfold roundup PfnCycle.round
  dsimp only
  split <;> omega

/-- **What a segment takes from the count.** -/
theorem memholeLoad_count (i : Info) (count : Bool) (h8 : 8 ∣ c.startPfn) (l : PtLoad) (w : Window)
    (hl : c.endPfn ≤ c.startPfn + 8 * w.buf.length) :
    (memholeLoad i count c l w).2.pfnMemhole =
      w.pfnMemhole - if count then (i.counted c l : Int) else 0 := by
  unfold memholeLoad
  generalize hs : max (i.paddrToPfn l.physStart) c.startPfn = s
  generalize he : min (i.paddrToPfn l.physEnd) c.endPfn = e
  rw [counted_eq i c l hs he]
  dsimp only
  by_cases hse : s ≥ e
  · rw [if_pos hse, show e - s = 0 by omega]
    simp
  rw [if_neg hse]
  have hcount := edges_count h8 (show c.startPfn ≤ s by omega) (show s < e by omega)
  obtain ⟨hup, hup', hdn, hdn', -⟩ := edges h8 (show c.startPfn ≤ s by omega) (show s < e by omega)
  have hif : (s < e ∧ s % 8 ≠ 0 ∧ s / 8 = e / 8) ↔ (s % 8 ≠ 0 ∧ s / 8 = e / 8) :=
    and_iff_right (by omega)
  rw [if_congr hif rfl rfl]
  dsimp only at hcount
  rw [← hcount]
  clear hcount hif
  generalize min (roundup s 8) e = up at hup hup'
  generalize max (PfnCycle.round e 8) s = down at hdn hdn'
  obtain ⟨w1, h1, -⟩ := setBits_adds count (up - s) s w (by omega) (by omega) hl
  have hc1 := setBits_count count (up - s) s w (show c.startPfn ≤ s by omega) (by omega)
  rw [h1] at hc1 ⊢
  dsimp only at hc1 ⊢
  rw [setBits_count count (e - down) down _ (by omega) (by omega)]
  generalize (up - c.startPfn) / 8 = startByte
  generalize (down - c.startPfn) / 8 = endByte
  generalize up - s = before at hc1 ⊢
  generalize e - down = after
  clear hup hup' hdn hdn' hse hs he
  by_cases hb : startByte < endByte
  · rw [if_pos hb]
    dsimp only
    rw [hc1]
    cases count with
    | false => simp
    | true =>
      simp only [↓reduceIte]
      omega
  · rw [if_neg hb, hc1]
    cases count with
    | false => simp
    | true =>
      simp only [↓reduceIte]
      omega

/-- The whole loop. -/
theorem memholeLoads_count (i : Info) (count : Bool) (h8 : 8 ∣ c.startPfn) :
    ∀ (ls : List PtLoad) (w : Window), c.endPfn ≤ c.startPfn + 8 * w.buf.length →
    (tryEach (memholeLoad i count c) ls w).2.pfnMemhole =
      w.pfnMemhole - if count then ((ls.map (i.counted c)).sum : Int) else 0
  | [], w, _ => by simp [tryEach]
  | l :: ls, w, hl => by
    obtain ⟨w1, h1, hadd⟩ := memholeLoad_adds i count h8 l w hl
    have hc1 := memholeLoad_count i count h8 l w hl
    rw [h1] at hc1
    rw [tryEach, h1]
    dsimp only at hc1 ⊢
    rw [memholeLoads_count i count h8 ls w1 (by rw [hadd.length]; exact hl), hc1]
    cases count with
    | false => simp
    | true =>
      simp only [↓reduceIte, List.map_cons, List.sum_cons]
      omega

/-! ## The frames -/

theorem countP_or {α : Type} {p q : α → Bool} : ∀ {l : List α}, (∀ x ∈ l, ¬ (p x = true ∧ q x = true)) →
    l.countP (fun x => p x || q x) = l.countP p + l.countP q
  | [], _ => rfl
  | a :: l, h => by
    have ha := h a List.mem_cons_self
    rw [List.countP_cons, List.countP_cons, List.countP_cons,
      countP_or fun x hx => h x (List.mem_cons_of_mem _ hx)]
    cases hp : p a <;> cases hq : q a <;> simp [hp, hq] at ha ⊢ <;> omega

theorem countP_interval (a b s n : Nat) :
    (List.range' s n).countP (fun p => decide (a ≤ p ∧ p < b)) = min b (s + n) - max a s := by
  induction n with
  | zero => simp
  | succ n ih =>
    rw [List.range'_concat, List.countP_append, ih, List.countP_singleton, Nat.one_mul]
    split
    · rename_i h
      rw [decide_eq_true_eq] at h
      omega
    · rename_i h
      rw [decide_eq_true_eq] at h
      omega

variable (i c) in
/-- The frame is in the window and in a segment. -/
def Info.InSegment (pfn : Nat) : Prop := ∃ l ∈ i.ptLoads, i.Whole l pfn

instance (pfn : Nat) : Decidable (i.InSegment pfn) := inferInstanceAs (Decidable (∃ l ∈ _, _))

/-- The number of the frames of a window that are in a segment. -/
def Info.framesIn (i : Info) (c : PfnCycle) : Nat :=
  (List.range' c.startPfn (c.endPfn - c.startPfn)).countP fun pfn => decide (i.InSegment pfn)

theorem clip_length (i : Info) (c : PfnCycle) (l : PtLoad) (h : c.startPfn ≤ c.endPfn) :
    (List.range' c.startPfn (c.endPfn - c.startPfn)).countP (fun pfn => decide (i.Whole l pfn)) =
      (i.clip c l).2 - (i.clip c l).1 := by
  have hc := countP_interval (i.paddrToPfn l.physStart) (i.paddrToPfn l.physEnd) c.startPfn
    (c.endPfn - c.startPfn)
  rw [Nat.add_sub_cancel' h] at hc
  exact hc

/-- **Disjoint segments**: their frames in a window add up. -/
theorem framesIn_eq (i : Info) (c : PfnCycle) (h : c.startPfn ≤ c.endPfn) :
    ∀ (ls : List PtLoad), ls.Pairwise (fun l l' => ∀ pfn, ¬ (i.Whole l pfn ∧ i.Whole l' pfn)) →
    (List.range' c.startPfn (c.endPfn - c.startPfn)).countP
        (fun pfn => decide (∃ l ∈ ls, i.Whole l pfn)) =
      (ls.map fun l => (i.clip c l).2 - (i.clip c l).1).sum
  | [], _ => by simp
  | l :: ls, hd => by
    rw [List.pairwise_cons] at hd
    rw [List.map_cons, List.sum_cons, ← framesIn_eq i c h ls hd.2, ← clip_length i c l h, ← countP_or]
    · congr 1
      funext pfn
      rw [← Bool.decide_or, decide_eq_decide, List.exists_mem_cons_iff]
    · rintro pfn - ⟨h1, h2⟩
      rw [decide_eq_true_eq] at h1 h2
      obtain ⟨l', hl', h2⟩ := h2
      exact hd.1 l' hl' pfn ⟨h1, h2⟩

/-! ## The claim on the whole -/

/-- Equal bits make equal bytes. -/
theorem byteAt_eq_of_bits {f g : ByteFile} {k : Nat}
    (h : ∀ j < 8, isOn f (8 * k + j) = isOn g (8 * k + j)) : byteAt f k = byteAt g k := by
  apply UInt8.toNat_inj.1
  apply Nat.eq_of_testBit_eq
  intro j
  by_cases hj : j < 8
  · have := h j hj
    rwa [isOn_eq_byteAt, isOn_eq_byteAt, show (8 * k + j) / 8 = k by omega,
      show (8 * k + j) % 8 = j by omega] at this
  · have hlt : ∀ b : UInt8, b.toNat.testBit j = false := fun b =>
      Nat.testBit_lt_two_pow (Nat.lt_of_lt_of_le b.toNat_lt
        (Nat.pow_le_pow_right (by decide) (by omega)))
    rw [hlt, hlt]

variable (i c) in
/-- **What is asked of `create_bitmap_from_memhole`.** It succeeds with exactly the bits of the frames
in a segment; its loop leaves every byte behind the window's as it was, whatever the buffer holds; and
the count, when it is asked for, goes down by the number of these frames. -/
structure MemholeExact (count : Bool) (m : Int) : Prop where
  succeeds : (createBitmapFromMemhole i count c m).1 = true
  bits : ∀ k, isOn (createBitmapFromMemhole i count c m).2.buf k = true ↔
    c.startPfn + k < c.endPfn ∧ i.InSegment (c.startPfn + k)
  untouched : ∀ w : Window, w.buf.length = i.bufsizeCyclic →
    (tryEach (memholeLoad i count c) i.ptLoads w).2.buf.length = w.buf.length ∧
      ∀ k, c.endPfn - c.startPfn ≤ 8 * k →
        byteAt (tryEach (memholeLoad i count c) i.ptLoads w).2.buf k = byteAt w.buf k
  counts : count = true →
    (createBitmapFromMemhole i count c m).2.pfnMemhole = m - (i.framesIn c : Int)

/-- The counts differ exactly when some segment is inside a byte. -/
theorem sum_counted_eq_iff (i : Info) (c : PfnCycle) : ∀ ls : List PtLoad,
    (ls.map fun l => (i.clip c l).2 - (i.clip c l).1).sum ≤ (ls.map (i.counted c)).sum ∧
      ((ls.map (i.counted c)).sum = (ls.map fun l => (i.clip c l).2 - (i.clip c l).1).sum ↔
        ∀ l ∈ ls, ¬ i.InsideByte c l)
  | [] => by simp
  | l :: ls => by
    obtain ⟨hle, hiff⟩ := sum_counted_eq_iff i c ls
    simp only [List.map_cons, List.sum_cons, List.forall_mem_cons]
    by_cases hb : i.InsideByte c l
    · have hlt := hb.1
      have hc : i.counted c l = ((i.clip c l).2 - (i.clip c l).1) * 2 := by
        rw [Info.counted, if_pos hb]
      simp only [hb, not_true_eq_false, false_and, iff_false]
      omega
    · have hc : i.counted c l = (i.clip c l).2 - (i.clip c l).1 := by
        rw [Info.counted, if_neg hb, Nat.mul_one]
      simp only [hb, not_false_eq_true, true_and, ← hiff]
      omega

end Bitmap
