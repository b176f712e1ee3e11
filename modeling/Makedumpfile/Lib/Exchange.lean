import Mathlib.Algebra.Group.Nat.Defs
import Mathlib.Data.List.Basic

/-!
# Exchange sort

The sort of two nested loops that exchanges the elements at `i` and `j` whenever `swap` says so. Row
`i` puts a least element of the rest at `i` and moves the ones it replaces to the right
(`exchangeRow_eq`), so the sort is a selection sort (`exchangeSort_eq`): it permutes
(`exchangeSort_perm`) and orders (`exchangeSort_pairwise`), and it commutes with maps that keep `swap`
(`exchangeSort_map`). When it also exchanges equal elements,
they end up in the opposite order (`filter_exchangeSort`), which with the order determines the result
(`exchangeSort_eq_mergeSort`).
-/

namespace Lib

variable {α : Type} (swap : α → α → Bool)

/-- One exchange. -/
def exchangeAt (l : List α) (i j : Nat) : List α :=
  match l[i]?, l[j]? with
  | some a, some b => if swap a b then (l.set i b).set j a else l
  | _, _ => l

/-- The inner loop. -/
def exchangeRow (l : List α) (i : Nat) : List α :=
  (List.range' (i + 1) (l.length - (i + 1))).foldl (fun l j => exchangeAt swap l i j) l

/-- Both loops. -/
def exchangeSort (l : List α) : List α := (List.range (l.length - 1)).foldl (exchangeRow swap) l

/-- What a row does to the element at its place and the elements after it. -/
def takeLeast : α → List α → α × List α
  | a, [] => (a, [])
  | a, b :: l =>
    if swap a b then ((takeLeast b l).1, a :: (takeLeast b l).2)
    else ((takeLeast a l).1, b :: (takeLeast a l).2)

@[simp] theorem length_takeLeast : ∀ (l : List α) (a : α), (takeLeast swap a l).2.length = l.length
  | [], _ => rfl
  | b :: l, a => by
    rw [takeLeast]
    split
    · simp [length_takeLeast l b]
    · simp [length_takeLeast l a]

/-- The rows as a selection. -/
def selectSort : List α → List α
  | [] => []
  | a :: l => (takeLeast swap a l).1 :: selectSort (takeLeast swap a l).2
termination_by l => l.length
decreasing_by simp

variable {swap}

theorem exchangeAt_append (p q : List α) (a b : α) (l : List α) :
    exchangeAt swap (p ++ a :: (q ++ b :: l)) p.length (p.length + 1 + q.length) =
      if swap a b then p ++ b :: (q ++ a :: l) else p ++ a :: (q ++ b :: l) := by
  have hi : (p ++ a :: (q ++ b :: l))[p.length]? = some a := by simp
  have hj : (p ++ a :: (q ++ b :: l))[p.length + 1 + q.length]? = some b := by
    rw [List.getElem?_append_right (by omega), show p.length + 1 + q.length - p.length =
      q.length + 1 by omega, List.getElem?_cons_succ, List.getElem?_append_right (by omega)]
    simp
  unfold exchangeAt
  rw [hi, hj]
  dsimp only
  split
  · rw [List.set_append_right _ _ (by omega), Nat.sub_self, List.set_cons_zero,
      List.set_append_right _ _ (by omega), show p.length + 1 + q.length - p.length =
      q.length + 1 by omega, List.set_cons_succ, List.set_append_right _ _ (by omega), Nat.sub_self,
      List.set_cons_zero]
  · rfl

theorem exchangeRow_loop : ∀ (l p q : List α) (a : α),
    (List.range' (p.length + 1 + q.length) l.length).foldl (fun l j => exchangeAt swap l p.length j)
        (p ++ a :: (q ++ l)) =
      p ++ (takeLeast swap a l).1 :: (q ++ (takeLeast swap a l).2)
  | [], p, q, a => by simp [takeLeast]
  | b :: l, p, q, a => by
    rw [List.length_cons, List.range'_succ, List.foldl_cons, exchangeAt_append, takeLeast]
    have hlen : ∀ c, p.length + 1 + q.length + 1 = p.length + 1 + (q ++ [c]).length := by
      intro c
      rw [List.length_append, List.length_singleton]
      omega
    split
    · have h := exchangeRow_loop l p (q ++ [a]) b
      rw [← hlen a, List.append_assoc, List.append_assoc, List.singleton_append,
        List.singleton_append] at h
      exact h
    · have h := exchangeRow_loop l p (q ++ [b]) a
      rw [← hlen b, List.append_assoc, List.append_assoc, List.singleton_append,
        List.singleton_append] at h
      exact h

/-- **A row.** -/
theorem exchangeRow_eq (p : List α) (a : α) (l : List α) :
    exchangeRow swap (p ++ a :: l) p.length =
      p ++ (takeLeast swap a l).1 :: (takeLeast swap a l).2 := by
  have h := @exchangeRow_loop α swap l p [] a
  rw [List.length_nil, Nat.add_zero, List.nil_append, List.nil_append] at h
  unfold exchangeRow
  rw [show (p ++ a :: l).length - (p.length + 1) = l.length by
    rw [List.length_append, List.length_cons]; omega]
  exact h

theorem exchangeRows_eq : ∀ (n : Nat) (p l : List α), l.length = n →
    (List.range' p.length (n - 1)).foldl (exchangeRow swap) (p ++ l) = p ++ selectSort swap l
  | 0, p, [], _ => by simp [selectSort]
  | 1, p, [a], _ => by simp [selectSort, takeLeast]
  | n + 2, p, a :: l, hn => by
    have hl : l.length = n + 1 := by simpa using hn
    rw [show n + 2 - 1 = n + 1 by omega, List.range'_succ, List.foldl_cons, exchangeRow_eq,
      selectSort]
    have h := exchangeRows_eq (n + 1) (p ++ [(takeLeast swap a l).1]) (takeLeast swap a l).2
      (by rw [length_takeLeast, hl])
    rw [List.length_append, List.length_singleton, List.append_assoc, List.append_assoc] at h
    exact h

/-- **The loops are a selection sort.** -/
theorem exchangeSort_eq (l : List α) : exchangeSort swap l = selectSort swap l := by
  have h := @exchangeRows_eq α swap l.length [] l rfl
  rw [List.length_nil, ← List.range_eq_range'] at h
  exact h

/-! ## What the sort does -/

theorem takeLeast_perm : ∀ (l : List α) (a : α),
    ((takeLeast swap a l).1 :: (takeLeast swap a l).2).Perm (a :: l)
  | [], a => .refl _
  | b :: l, a => by
    rw [takeLeast]
    split
    · exact (List.Perm.swap a _ _).trans ((takeLeast_perm l b).cons a)
    · exact (List.Perm.swap b _ _).trans (((takeLeast_perm l a).cons b).trans (List.Perm.swap a b l))

theorem selectSort_perm : ∀ (n : Nat) (l : List α), l.length = n → (selectSort swap l).Perm l
  | 0, [], _ => by simp [selectSort]
  | n + 1, a :: l, h => by
    have hl : l.length = n := by simpa using h
    rw [selectSort]
    exact ((selectSort_perm n _ (by rw [length_takeLeast, hl])).cons _).trans (takeLeast_perm l a)

theorem exchangeSort_perm (l : List α) : (exchangeSort swap l).Perm l := by
  rw [exchangeSort_eq]
  exact selectSort_perm _ l rfl

section Map

variable {β : Type} {swap' : β → β → Bool} {g : α → β}

theorem takeLeast_map (h : ∀ a b, swap' (g a) (g b) = swap a b) : ∀ (l : List α) (a : α),
    takeLeast swap' (g a) (l.map g) = (g (takeLeast swap a l).1, (takeLeast swap a l).2.map g)
  | [], a => rfl
  | b :: l, a => by
    rw [List.map_cons, takeLeast, takeLeast, h]
    split
    · rw [takeLeast_map h l b]
      rfl
    · rw [takeLeast_map h l a]
      rfl

/-- The sort looks at nothing but what `swap` looks at. -/
theorem exchangeSort_map (h : ∀ a b, swap' (g a) (g b) = swap a b) (l : List α) :
    exchangeSort swap' (l.map g) = (exchangeSort swap l).map g := by
  rw [exchangeSort_eq, exchangeSort_eq]
  have hsel : ∀ (n : Nat) (l : List α), l.length = n →
      selectSort swap' (l.map g) = (selectSort swap l).map g := by
    intro n
    induction n with
    | zero =>
      intro l hl
      rw [List.length_eq_zero_iff.1 hl]
      simp [selectSort]
    | succ n ih =>
      intro l hl
      obtain ⟨a, l, rfl⟩ := List.exists_cons_of_length_eq_add_one hl
      have hlen : (takeLeast swap a l).2.length = n := by
        rw [length_takeLeast]
        simpa using hl
      rw [List.map_cons, selectSort, takeLeast_map h, selectSort, ih _ hlen]
      rfl
  exact hsel _ l rfl

end Map

variable {key : α → Nat}

theorem takeLeast_le (h1 : ∀ a b, swap a b = true → key b ≤ key a)
    (h2 : ∀ a b, swap a b = false → key a ≤ key b) : ∀ (l : List α) (a : α),
    key (takeLeast swap a l).1 ≤ key a ∧ ∀ b ∈ l, key (takeLeast swap a l).1 ≤ key b
  | [], a => ⟨Nat.le_refl _, by simp⟩
  | b :: l, a => by
    rw [takeLeast]
    cases hs : swap a b with
    | true =>
      obtain ⟨hb, hl⟩ := takeLeast_le h1 h2 l b
      exact ⟨Nat.le_trans hb (h1 a b hs), List.forall_mem_cons.2 ⟨hb, hl⟩⟩
    | false =>
      obtain ⟨ha, hl⟩ := takeLeast_le h1 h2 l a
      exact ⟨ha, List.forall_mem_cons.2 ⟨Nat.le_trans ha (h2 a b hs), hl⟩⟩

theorem takeLeast_le_rest (h1 : ∀ a b, swap a b = true → key b ≤ key a)
    (h2 : ∀ a b, swap a b = false → key a ≤ key b) (l : List α) (a : α) :
    ∀ b ∈ (takeLeast swap a l).2, key (takeLeast swap a l).1 ≤ key b := by
  intro b hb
  obtain ⟨ha, hl⟩ := takeLeast_le h1 h2 l a
  rcases List.mem_cons.1 ((takeLeast_perm l a).mem_iff.1 (List.mem_cons_of_mem _ hb)) with rfl | hb
  · exact ha
  · exact hl b hb

/-- **The order.** -/
theorem exchangeSort_pairwise (h1 : ∀ a b, swap a b = true → key b ≤ key a)
    (h2 : ∀ a b, swap a b = false → key a ≤ key b) (l : List α) :
    (exchangeSort swap l).Pairwise fun a b => key a ≤ key b := by
  rw [exchangeSort_eq]
  have hsel : ∀ (n : Nat) (l : List α), l.length = n →
      (selectSort swap l).Pairwise fun a b => key a ≤ key b := by
    intro n
    induction n with
    | zero =>
      intro l hl
      rw [List.length_eq_zero_iff.1 hl]
      simp [selectSort]
    | succ n ih =>
      intro l hl
      obtain ⟨a, l, rfl⟩ := List.exists_cons_of_length_eq_add_one hl
      rw [selectSort, List.pairwise_cons]
      have hlen : (takeLeast swap a l).2.length = n := by
        rw [length_takeLeast]
        simpa using hl
      refine ⟨fun b hb => takeLeast_le_rest h1 h2 l a b ?_, ih _ hlen⟩
      exact (selectSort_perm _ _ rfl).mem_iff.1 hb
  exact hsel _ l rfl

/-! ## Equal elements -/

/-- The elements with a given key. -/
def withKey (key : α → Nat) (v : Nat) (l : List α) : List α := l.filter fun a => key a = v

theorem withKey_cons (v : Nat) (a : α) (l : List α) :
    withKey key v (a :: l) = if key a = v then a :: withKey key v l else withKey key v l := by
  unfold withKey
  rw [List.filter_cons]
  by_cases h : key a = v <;> simp [h]

/-- A row that also exchanges equal elements takes the last of the least ones; the others stay in
order. -/
theorem withKey_takeLeast (h : ∀ a b, swap a b = true ↔ key b ≤ key a) (v : Nat) :
    ∀ (l : List α) (a : α), withKey key v (a :: l) = withKey key v (takeLeast swap a l).2 ++
      if key (takeLeast swap a l).1 = v then [(takeLeast swap a l).1] else []
  | [], a => by
    rw [takeLeast, withKey_cons]
    split <;> rfl
  | b :: l, a => by
    rw [takeLeast]
    cases hs : swap a b with
    | true =>
      have ih := withKey_takeLeast h v l b
      simp only [↓reduceIte]
      rw [withKey_cons v a (b :: l), ih, withKey_cons v a]
      split <;> rfl
    | false =>
      have ih := withKey_takeLeast h v l a
      have hlt : key a < key b := by
        have := (h a b).not.1 (by simp [hs])
        omega
      simp only [Bool.false_eq_true, ↓reduceIte]
      rw [withKey_cons] at ih
      rw [withKey_cons, withKey_cons, withKey_cons]
      -- `a` and `b` have different keys
      by_cases hb : key b = v
      · rw [if_neg (by omega)] at ih
        rw [if_neg (by omega), if_pos hb, if_pos hb, ih]
        rfl
      · rw [if_neg hb, if_neg hb]
        exact ih

/-- **Equal elements** end up in the opposite order. -/
theorem withKey_exchangeSort (h : ∀ a b, swap a b = true ↔ key b ≤ key a) (v : Nat) (l : List α) :
    withKey key v (exchangeSort swap l) = (withKey key v l).reverse := by
  rw [exchangeSort_eq]
  have hsel : ∀ (n : Nat) (l : List α), l.length = n →
      withKey key v (selectSort swap l) = (withKey key v l).reverse := by
    intro n
    induction n with
    | zero =>
      intro l hl
      rw [List.length_eq_zero_iff.1 hl]
      simp [selectSort, withKey]
    | succ n ih =>
      intro l hl
      obtain ⟨a, l, rfl⟩ := List.exists_cons_of_length_eq_add_one hl
      have hlen : (takeLeast swap a l).2.length = n := by
        rw [length_takeLeast]
        simpa using hl
      rw [selectSort, withKey_cons, ih _ hlen, withKey_takeLeast h v l a]
      split <;> simp
  exact hsel _ l rfl

/-- An ordered list is determined by the order of its elements with equal keys. -/
theorem eq_of_withKey : ∀ {l l' : List α}, (l.Pairwise fun a b => key a ≤ key b) →
    (l'.Pairwise fun a b => key a ≤ key b) → (∀ v, withKey key v l = withKey key v l') → l = l'
  | [], [], _, _, _ => rfl
  | [], b :: l', _, _, h => by
    have := h (key b)
    rw [withKey_cons, if_pos rfl] at this
    cases this
  | a :: l, [], _, _, h => by
    have := h (key a)
    rw [withKey_cons, if_pos rfl] at this
    cases this
  | a :: l, b :: l', hl, hl', h => by
    rw [List.pairwise_cons] at hl hl'
    -- the first elements are in both lists, and least there
    have hba : key b ≤ key a := by
      have ha : a ∈ withKey key (key a) (b :: l') := by
        rw [← h, withKey_cons, if_pos rfl]
        exact List.mem_cons_self
      rcases List.mem_cons.1 (List.mem_of_mem_filter ha) with rfl | ha
      · exact Nat.le_refl _
      · exact hl'.1 a ha
    have hab : key a ≤ key b := by
      have hb : b ∈ withKey key (key b) (a :: l) := by
        rw [h, withKey_cons, if_pos rfl]
        exact List.mem_cons_self
      rcases List.mem_cons.1 (List.mem_of_mem_filter hb) with rfl | hb
      · exact Nat.le_refl _
      · exact hl.1 b hb
    have hkey : key a = key b := Nat.le_antisymm hab hba
    have hhead := h (key a)
    rw [withKey_cons, if_pos rfl, withKey_cons, if_pos hkey.symm, List.cons_eq_cons] at hhead
    obtain ⟨rfl, -⟩ := hhead
    rw [eq_of_withKey hl.2 hl'.2 fun v => ?_]
    have hv := h v
    rw [withKey_cons, withKey_cons] at hv
    split at hv
    · exact (List.cons_eq_cons.1 hv).2
    · exact hv

theorem decide_key_trans (a b c : α) (h1 : decide (key a ≤ key b) = true)
    (h2 : decide (key b ≤ key c) = true) : decide (key a ≤ key c) = true := by
  rw [decide_eq_true_eq] at *
  omega

theorem decide_key_total (a b : α) :
    (decide (key a ≤ key b) || decide (key b ≤ key a)) = true := by
  rw [Bool.or_eq_true, decide_eq_true_eq, decide_eq_true_eq]
  omega

theorem pairwise_mergeSort_key (l : List α) :
    (l.mergeSort fun a b => key a ≤ key b).Pairwise fun a b => decide (key a ≤ key b) = true :=
  List.pairwise_mergeSort decide_key_trans decide_key_total l

/-- A stable sort keeps the order of equal elements. -/
theorem withKey_mergeSort (v : Nat) (l : List α) :
    withKey key v (l.mergeSort fun a b => key a ≤ key b) = withKey key v l := by
  have hpair : (withKey key v l).Pairwise fun a b => decide (key a ≤ key b) = true := by
    refine List.pairwise_of_forall_mem_list fun a ha b hb => ?_
    have h1 := (List.mem_filter.1 ha).2
    have h2 := (List.mem_filter.1 hb).2
    simp only [decide_eq_true_eq] at *
    omega
  have hsub := (List.sublist_mergeSort decide_key_trans decide_key_total hpair List.filter_sublist).filter
    fun a => decide (key a = v)
  rw [withKey, List.filter_filter] at hsub
  simp only [Bool.and_self] at hsub
  exact (hsub.eq_of_length ((List.mergeSort_perm l _).filter _).length_eq.symm).symm

/-- **The result**: a stable sort of the reversed list. -/
theorem exchangeSort_eq_mergeSort (h : ∀ a b, swap a b = true ↔ key b ≤ key a) (l : List α) :
    exchangeSort swap l = l.reverse.mergeSort fun a b => key a ≤ key b := by
  refine eq_of_withKey (exchangeSort_pairwise (fun a b => (h a b).1) (fun a b hs => ?_) l) ?_
    fun v => ?_
  · have := (h a b).not.1 (by simp [hs])
    omega
  · exact (pairwise_mergeSort_key l.reverse).imp fun h => by simpa using h
  · rw [withKey_exchangeSort h, withKey_mergeSort, withKey, withKey, List.filter_reverse]

end Lib
