import Makedumpfile.Lib.Exchange
import Makedumpfile.Split.Info

/-!
# Sorting the parts

The sort moves the names and the page frames of the parts as an exchange sort moves its elements, and
leaves the erase information where it is (`map_key_sort`, `map_eraseinfo_sort`). So it permutes the
records exactly when the parts in their order have the erase information of the parts as they were
given (`sort_ok_iff`).
-/

namespace Split

open Lib

variable {be : Bool} {files : Files} {dh : List UInt8} {rs : List SplittingInfo}

/-- What the sort moves. -/
def SplittingInfo.key (p : SplittingInfo) : String × Nat × Nat := (p.nameDumpfile, p.startPfn, p.endPfn)

/-- What it leaves. -/
def SplittingInfo.eraseinfo (p : SplittingInfo) : Nat × Nat := (p.offsetEraseinfo, p.sizeEraseinfo)

theorem SplittingInfo.ext_key {p q : SplittingInfo} (h : p.key = q.key)
    (he : p.eraseinfo = q.eraseinfo) : p = q := by
  obtain ⟨n, s, e, o, z⟩ := p
  obtain ⟨n', s', e', o', z'⟩ := q
  simp only [key, eraseinfo, Prod.mk.injEq] at h he
  obtain ⟨rfl, rfl, rfl⟩ := h
  obtain ⟨rfl, rfl⟩ := he
  rfl

theorem eq_of_maps : ∀ {l l' : List SplittingInfo}, l.map (·.key) = l'.map (·.key) →
    l.map (·.eraseinfo) = l'.map (·.eraseinfo) → l = l'
  | [], [], _, _ => rfl
  | [], _ :: _, h, _ => by cases h
  | _ :: _, [], h, _ => by cases h
  | p :: l, q :: l', h, he => by
    rw [List.map_cons, List.map_cons, List.cons_eq_cons] at h he
    rw [SplittingInfo.ext_key h.1 he.1, eq_of_maps h.2 he.2]

/-- When the sort exchanges. -/
def swapKeys (a b : String × Nat × Nat) : Bool := b.2.1 ≤ a.2.1

theorem swapKeys_iff (a b : String × Nat × Nat) : swapKeys a b = true ↔ b.2.1 ≤ a.2.1 := by
  simp [swapKeys]

/-! ## The loops -/

@[simp] theorem length_exchangeParts (l : List SplittingInfo) (i j : Nat) :
    (exchangeParts l i j).length = l.length := by
  unfold exchangeParts
  split
  · split <;> simp
  · rfl

theorem map_eraseinfo_exchangeParts (l : List SplittingInfo) (i j : Nat) :
    (exchangeParts l i j).map (·.eraseinfo) = l.map (·.eraseinfo) := by
  unfold exchangeParts
  split
  · rename_i a b ha hb
    split
    · rfl
    · apply List.ext_getElem?
      intro k
      have hi := (List.getElem?_eq_some_iff.1 ha).1
      simp only [List.getElem?_map, List.getElem?_modify, List.getElem?_set, hi, if_true]
      by_cases hki : i = k
      · subst hki
        rw [ha]
        by_cases hj : j = i <;> simp [hj, SplittingInfo.eraseinfo]
      · rw [if_neg hki]
        cases l[k]? with
        | none => simp
        | some c => by_cases hj : j = k <;> simp [hj, SplittingInfo.eraseinfo]
  · rfl

theorem map_key_exchangeParts (l : List SplittingInfo) (i j : Nat) :
    (exchangeParts l i j).map (·.key) = exchangeAt swapKeys (l.map (·.key)) i j := by
  unfold exchangeParts exchangeAt
  rw [List.getElem?_map, List.getElem?_map]
  cases ha : l[i]? with
  | none => simp
  | some a =>
    cases hb : l[j]? with
    | none => simp
    | some b =>
      simp only [Option.map_some]
      by_cases hlt : a.startPfn < b.startPfn
      · rw [if_pos hlt, if_neg (by rw [swapKeys_iff]; exact Nat.not_le.2 hlt)]
      · rw [if_neg hlt, if_pos (by rw [swapKeys_iff]; exact Nat.not_lt.1 hlt)]
        have hi := (List.getElem?_eq_some_iff.1 ha).1
        have hj := (List.getElem?_eq_some_iff.1 hb).1
        apply List.ext_getElem?
        intro k
        simp only [List.getElem?_map, List.getElem?_modify, List.getElem?_set, List.length_set,
          List.length_map, hi, hj, if_true]
        by_cases hkj : j = k
        · subst hkj
          by_cases hki : i = j
          · simp [hki, SplittingInfo.key]
          · simp [hki, hb, SplittingInfo.key]
        · by_cases hki : i = k
          · simp [hkj, hki, SplittingInfo.key]
          · cases l[k]? <;> simp [hkj, hki]

/-- The exchange of a part with itself does nothing. -/
theorem exchangeParts_self (l : List SplittingInfo) (i : Nat) : exchangeParts l i i = l := by
  have hk := map_key_exchangeParts l i i
  have hself : exchangeAt swapKeys (l.map (·.key)) i i = l.map (·.key) := by
    unfold exchangeAt
    cases ha : (l.map (·.key))[i]? with
    | none => rfl
    | some a =>
      obtain ⟨hi, he⟩ := List.getElem?_eq_some_iff.1 ha
      simp only [List.set_set]
      rw [← he, List.set_getElem_self, ite_self]
  rw [hself] at hk
  exact eq_of_maps hk (map_eraseinfo_exchangeParts l i i)

theorem foldl_exchangeParts (i : Nat) : ∀ (js : List Nat) (l : List SplittingInfo),
    (js.foldl (fun l j => exchangeParts l i j) l).map (·.key) =
        js.foldl (fun l j => exchangeAt swapKeys l i j) (l.map (·.key)) ∧
      (js.foldl (fun l j => exchangeParts l i j) l).map (·.eraseinfo) = l.map (·.eraseinfo)
  | [], _ => ⟨rfl, rfl⟩
  | j :: js, l => by
    obtain ⟨h1, h2⟩ := foldl_exchangeParts i js (exchangeParts l i j)
    rw [List.foldl_cons, List.foldl_cons, ← map_key_exchangeParts]
    exact ⟨h1, h2.trans (map_eraseinfo_exchangeParts l i j)⟩

theorem sortRow_maps (l : List SplittingInfo) (i : Nat) :
    (sortRow l i).map (·.key) = exchangeRow swapKeys (l.map (·.key)) i ∧
      (sortRow l i).map (·.eraseinfo) = l.map (·.eraseinfo) := by
  unfold sortRow exchangeRow
  rw [List.length_map]
  by_cases hi : i < l.length
  · rw [show l.length - i = l.length - (i + 1) + 1 by omega, List.range'_succ, List.foldl_cons,
      exchangeParts_self]
    exact foldl_exchangeParts i _ l
  · rw [show l.length - i = 0 by omega, show l.length - (i + 1) = 0 by omega]
    exact ⟨rfl, rfl⟩

theorem foldl_sortRow : ∀ (is : List Nat) (l : List SplittingInfo),
    (is.foldl sortRow l).map (·.key) = is.foldl (exchangeRow swapKeys) (l.map (·.key)) ∧
      (is.foldl sortRow l).map (·.eraseinfo) = l.map (·.eraseinfo)
  | [], _ => ⟨rfl, rfl⟩
  | i :: is, l => by
    obtain ⟨h1, h2⟩ := foldl_sortRow is (sortRow l i)
    rw [List.foldl_cons, List.foldl_cons, ← (sortRow_maps l i).1]
    exact ⟨h1, h2.trans (sortRow_maps l i).2⟩

/-- **The loops** sort what they move. -/
theorem map_key_sort (l : List SplittingInfo) :
    (sortSplittingInfo l).map (·.key) = exchangeSort swapKeys (l.map (·.key)) := by
  unfold sortSplittingInfo exchangeSort
  rw [List.length_map]
  exact (foldl_sortRow _ l).1

theorem map_eraseinfo_sort (l : List SplittingInfo) :
    (sortSplittingInfo l).map (·.eraseinfo) = l.map (·.eraseinfo) := (foldl_sortRow _ l).2

/-- The parts in the order of their page frames, those that start at the same frame from the last to
the first. -/
def inOrder (l : List SplittingInfo) : List SplittingInfo :=
  l.reverse.mergeSort fun a b => a.startPfn ≤ b.startPfn

theorem map_key_sort_eq (l : List SplittingInfo) :
    (sortSplittingInfo l).map (·.key) = (inOrder l).map (·.key) := by
  have hmap : ∀ l : List SplittingInfo, (l.mergeSort fun a b => a.startPfn ≤ b.startPfn).map (·.key) =
      (l.map (·.key)).mergeSort fun a b => a.2.1 ≤ b.2.1 := fun l =>
    List.map_mergeSort fun a _ b _ => rfl
  rw [map_key_sort, @exchangeSort_eq_mergeSort _ swapKeys (·.2.1) swapKeys_iff, inOrder, hmap,
    List.map_reverse]

theorem inOrder_perm (l : List SplittingInfo) : (inOrder l).Perm l :=
  (List.mergeSort_perm _ _).trans (List.reverse_perm l)

theorem inOrder_pairwise (l : List SplittingInfo) :
    (inOrder l).Pairwise fun a b => a.startPfn ≤ b.startPfn :=
  (@pairwise_mergeSort_key _ (·.startPfn) l.reverse).imp fun h => by simpa using h

/-! ## The records as they are read -/

variable (be files) in
/-- Where a part says that its erase information is. -/
def ownEraseinfo (name : String) : Option (Nat × Nat) :=
  (readKdumpSubHeader be files name).map fun kh =>
    (hostNat be (ByteFile.pread kh 64 8), hostNat be (ByteFile.pread kh 72 8))

theorem exists_of_mem_mapM {α β : Type} {f : α → Option β} : ∀ {l : List α} {l' : List β},
    l.mapM f = some l' → ∀ b ∈ l', ∃ a ∈ l, f a = some b
  | [], l', h, b, hb => by
    cases h
    cases hb
  | a :: l, l', h, b, hb => by
    rw [List.mapM_cons] at h
    simp only [Option.bind_eq_bind, Option.bind_eq_some_iff] at h
    obtain ⟨b', ha, l'', hl, h⟩ := h
    cases h
    rcases List.mem_cons.1 hb with rfl | hb
    · exact ⟨a, List.mem_cons_self, ha⟩
    · obtain ⟨a', ha', h'⟩ := exists_of_mem_mapM hl b hb
      exact ⟨a', List.mem_cons_of_mem _ ha', h'⟩

theorem mapM_congr {α β : Type} {f g : α → Option β} : ∀ {l : List α}, (∀ a ∈ l, f a = g a) →
    l.mapM f = l.mapM g
  | [], _ => rfl
  | a :: l, h => by
    rw [List.mapM_cons, List.mapM_cons, h a List.mem_cons_self,
      mapM_congr fun b hb => h b (List.mem_cons_of_mem _ hb)]

theorem storePart_own {name : String} {p : SplittingInfo} (h : storePart be files dh name = some p) :
    ownEraseinfo be files p.nameDumpfile = some p.eraseinfo := by
  unfold storePart at h
  simp only [Option.bind_eq_bind, Option.bind_eq_some_iff] at h
  obtain ⟨tmp, -, -, -, kh, hkh, h⟩ := h
  cases h
  unfold ownEraseinfo
  rw [hkh]
  rfl

theorem storeSplittingInfo_own {names : List String} (h : storeSplittingInfo be files names = some rs) :
    ∀ p ∈ rs, ownEraseinfo be files p.nameDumpfile = some p.eraseinfo := by
  cases names with
  | nil =>
    cases h
    simp
  | cons name names =>
    unfold storeSplittingInfo at h
    simp only [Option.bind_eq_bind, Option.bind_eq_some_iff] at h
    obtain ⟨dh, -, -, -, h⟩ := h
    intro p hp
    obtain ⟨n, -, hn⟩ := exists_of_mem_mapM h p hp
    exact storePart_own hn

variable (be files rs) in
/-- **What is asked of the sort**: it permutes the records, in the order of their first page frame, and
the erase information copied is that of each part. -/
structure SortOk : Prop where
  perm : (sortSplittingInfo rs).Perm rs
  ordered : (sortSplittingInfo rs).Pairwise fun a b => a.startPfn ≤ b.startPfn
  own : copyEraseinfo files (sortSplittingInfo rs) =
    ((sortSplittingInfo rs).mapM fun p => (ownEraseinfo be files p.nameDumpfile).bind fun ei =>
      readEraseinfo files { p with offsetEraseinfo := ei.1, sizeEraseinfo := ei.2 }).map List.flatten

/-- **Exactly when the sort does what is asked**, for records that were read from the parts: in the
order of the page frames the parts have the erase information that the records have as they are
given. -/
theorem sort_ok_iff {names : List String} (h : storeSplittingInfo be files names = some rs) :
    SortOk be files rs ↔ (inOrder rs).map (·.eraseinfo) = rs.map (·.eraseinfo) := by
  have hown := storeSplittingInfo_own h
  have hkeys := map_key_sort_eq rs
  have hei := map_eraseinfo_sort rs
  have hnames : (sortSplittingInfo rs).map (·.nameDumpfile) = (inOrder rs).map (·.nameDumpfile) := by
    have := congrArg (List.map Prod.fst) hkeys
    rwa [List.map_map, List.map_map] at this
  constructor
  · intro hok
    -- a record of the result is one that was read, so the name tells its erase information
    have hsort : (sortSplittingInfo rs).map (fun p => some p.eraseinfo) =
        ((sortSplittingInfo rs).map (·.nameDumpfile)).map (ownEraseinfo be files) := by
      rw [List.map_map]
      exact List.map_congr_left fun p hp => (hown p (hok.perm.mem_iff.1 hp)).symm
    have horder : (inOrder rs).map (fun p => some p.eraseinfo) =
        ((inOrder rs).map (·.nameDumpfile)).map (ownEraseinfo be files) := by
      rw [List.map_map]
      exact List.map_congr_left fun p hp => (hown p ((inOrder_perm rs).mem_iff.1 hp)).symm
    rw [hnames, ← horder] at hsort
    have hinj : ∀ l l' : List SplittingInfo, l.map (fun p => some p.eraseinfo) =
        l'.map (fun p => some p.eraseinfo) → l.map (·.eraseinfo) = l'.map (·.eraseinfo) := by
      intro l l' he
      have : (l.map (·.eraseinfo)).map some = (l'.map (·.eraseinfo)).map some := by
        rw [List.map_map, List.map_map]
        exact he
      exact List.map_injective_iff.2 (Option.some_injective _) this
    rw [← hei, hinj _ _ hsort]
  · intro hcond
    have heq : sortSplittingInfo rs = inOrder rs := eq_of_maps hkeys (hei.trans hcond.symm)
    refine ⟨heq ▸ inOrder_perm rs, heq ▸ inOrder_pairwise rs, ?_⟩
    unfold copyEraseinfo
    rw [mapM_congr]
    intro p hp
    rw [heq] at hp
    rw [hown p ((inOrder_perm rs).mem_iff.1 hp)]
    rfl

/-! ## Two parts -/

/-- A part with the page frames `[start, end)` and `erase` as erase information. -/
def partFile (start stop : Nat) (erase : List UInt8) : ByteFile :=
  ({ headerVersion := 6, utsname := .replicate 390 0, timestamp := .replicate 16 0, status := 1
     blockSize := 512, subHdrSize := 1, bitmapBlocks := 2, maxMapnr := 8, nrCpus := 1 :
     Kdump.DiskDumpHeader }).encode false ++ List.replicate 48 0 ++
  ({ physBase := 0, dumpLevel := 31, split := 1, startPfn64 := start, endPfn64 := stop
     maxMapnr64 := 8, offsetEraseinfo := 616, sizeEraseinfo := erase.length :
     Kdump.KdumpSubHeader }).encode false ++ erase

/-- The first part without erase information, the second with one byte. -/
def twoParts : Files := fun name =>
  if name = "first" then some (partFile 0 4 [])
  else if name = "second" then some (partFile 4 8 [0x65])
  else none

theorem store_in_order : storeSplittingInfo false twoParts ["first", "second"] =
    some [⟨"first", 0, 4, 616, 0⟩, ⟨"second", 4, 8, 616, 1⟩] := by decide +kernel

theorem sort_ok_in_order :
    SortOk false twoParts [⟨"first", 0, 4, 616, 0⟩, ⟨"second", 4, 8, 616, 1⟩] :=
  (sort_ok_iff store_in_order).2 (by simp [inOrder, List.mergeSort, SplittingInfo.eraseinfo])

/-- Given the other way round, the sort leaves the erase information of the second part with the
first. -/
theorem sort_mixes_eraseinfo : ∃ rs, storeSplittingInfo false twoParts ["second", "first"] = some rs ∧
    sortSplittingInfo rs = [⟨"first", 0, 4, 616, 1⟩, ⟨"second", 4, 8, 616, 0⟩] ∧
    ¬ SortOk false twoParts rs := by
  refine ⟨[⟨"second", 4, 8, 616, 1⟩, ⟨"first", 0, 4, 616, 0⟩], by decide +kernel, by decide +kernel,
    fun h => ?_⟩
  have hmem : (⟨"first", 0, 4, 616, 1⟩ : SplittingInfo) ∈
      sortSplittingInfo [⟨"second", 4, 8, 616, 1⟩, ⟨"first", 0, 4, 616, 0⟩] := by decide +kernel
  exact absurd (h.perm.mem_iff.1 hmem) (by decide)

end Split
