import Mathlib.Data.List.Induction
import Makedumpfile.Erase.Filter

/-!
# The extractions of a run

What the rounds of `filter_data_buffer` do to the pages is fixed by the extractions alone: a run is
the run of the list machine `Marks`, which logs `(page, entry)` for each extraction, followed by the
`memset`s of the log (`runThreads_eq`, `filterPages_run`). So all invariants are about `Marks`.
-/

namespace Erase

open Lib ByteFile

/-- The filter list, the finished pages and the extractions made so far. -/
structure Marks where
  filter : Filter
  done : List Nat := []
  log : List (Nat × FilterInfo) := []

def markRound (pageSize pfn : Nat) (m : Marks) : Option Marks :=
  if pfn ∈ m.done then none
  else
    match extractFilterInfo (pfn * pageSize) (pfn * pageSize + pageSize) m.filter with
    | none => some { m with done := pfn :: m.done }
    | some (fi, s') => some { m with filter := s', log := m.log ++ [(pfn, fi)] }

def runMarks (pageSize : Nat) : List Nat → Marks → Option Marks
  | [], m => some m
  | pfn :: sched, m => (markRound pageSize pfn m).bind (runMarks pageSize sched)

/-- The `memset`s of a log. -/
def eraseAll (pageSize : Nat) (log : List (Nat × FilterInfo)) (mem : Nat → List UInt8) :
    Nat → List UInt8 :=
  log.foldl (fun b e => Function.update b e.1 (e.2.erase (e.1 * pageSize) (b e.1))) mem

variable {pageSize : Nat}

@[simp] theorem eraseAll_nil (mem : Nat → List UInt8) : eraseAll pageSize [] mem = mem := rfl

theorem eraseAll_snoc (log : List (Nat × FilterInfo)) (q : Nat) (fi : FilterInfo)
    (mem : Nat → List UInt8) :
    eraseAll pageSize (log ++ [(q, fi)]) mem =
      Function.update (eraseAll pageSize log mem) q
        (fi.erase (q * pageSize) (eraseAll pageSize log mem q)) := by
  simp [eraseAll]

/-! ## Rounds -/

theorem markRound_cases {q : Nat} {m m' : Marks} (h : markRound pageSize q m = some m') :
    q ∉ m.done ∧
      ((extractFilterInfo (q * pageSize) (q * pageSize + pageSize) m.filter = none ∧
          m' = { m with done := q :: m.done }) ∨
        ∃ fi s', extractFilterInfo (q * pageSize) (q * pageSize + pageSize) m.filter =
          some (fi, s') ∧ m' = { m with filter := s', log := m.log ++ [(q, fi)] }) := by
  unfold markRound at h
  split at h
  · cases h
  · rename_i hq
    refine ⟨hq, ?_⟩
    split at h
    · rename_i he
      cases h
      exact .inl ⟨he, rfl⟩
    · rename_i fi s' he
      cases h
      exact .inr ⟨fi, s', he, rfl⟩

theorem runMarks_cons {q : Nat} {sched : List Nat} {m m' : Marks}
    (h : runMarks pageSize (q :: sched) m = some m') :
    ∃ m1, markRound pageSize q m = some m1 ∧ runMarks pageSize sched m1 = some m' :=
  Option.bind_eq_some_iff.1 h

theorem runMarks_append : ∀ (s1 s2 : List Nat) (m : Marks),
    runMarks pageSize (s1 ++ s2) m = (runMarks pageSize s1 m).bind (runMarks pageSize s2)
  | [], _, _ => rfl
  | q :: s1, s2, m => by
    simp only [List.cons_append, runMarks, Option.bind_assoc]
    congr 1
    funext m1
    exact runMarks_append s1 s2 m1

theorem markRound_done {q k : Nat} {m m' : Marks} (h : markRound pageSize q m = some m')
    (hk : k ∈ m.done) : k ∈ m'.done := by
  obtain ⟨-, ⟨-, rfl⟩ | ⟨fi, s', -, rfl⟩⟩ := markRound_cases h
  · exact List.mem_cons_of_mem _ hk
  · exact hk

/-- A page that is finished has no further round. -/
theorem runMarks_not_mem : ∀ {sched : List Nat} {m m' : Marks},
    runMarks pageSize sched m = some m' → ∀ {k : Nat}, k ∈ m.done → k ∉ sched
  | [], _, _, _, _, _ => List.not_mem_nil
  | q :: sched, m, m', h, k, hk => by
    obtain ⟨m1, h1, h2⟩ := runMarks_cons h
    have hq := (markRound_cases h1).1
    intro hc
    rcases List.mem_cons.1 hc with rfl | hc
    · exact hq hk
    · exact runMarks_not_mem h2 (markRound_done h1 hk) hc

theorem runMarks_keeps : ∀ {sched : List Nat} {m m' : Marks},
    runMarks pageSize sched m = some m' → ∀ {k : Nat}, k ∈ m.done → k ∈ m'.done
  | [], _, _, h, _, hk => by
    cases h
    exact hk
  | q :: sched, m, m', h, k, hk => by
    obtain ⟨m1, h1, h2⟩ := runMarks_cons h
    exact runMarks_keeps h2 (markRound_done h1 hk)

theorem runMarks_done : ∀ {sched : List Nat} {m m' : Marks},
    runMarks pageSize sched m = some m' → ∀ {k : Nat}, k ∈ m'.done → k ∈ m.done ∨ k ∈ sched
  | [], _, _, h, _, hk => by
    cases h
    exact .inl hk
  | q :: sched, m, m', h, k, hk => by
    obtain ⟨m1, h1, h2⟩ := runMarks_cons h
    rcases runMarks_done h2 hk with hk | hk
    · obtain ⟨-, ⟨-, rfl⟩ | ⟨fi, s', -, rfl⟩⟩ := markRound_cases h1
      · rcases List.mem_cons.1 hk with rfl | hk
        · exact .inr (by simp)
        · exact .inl hk
      · exact .inl hk
    · exact .inr (List.mem_cons_of_mem _ hk)

/-! ## Threads -/

def Marks.threads (pageSize : Nat) (mem : Nat → List UInt8) (m : Marks) : Threads :=
  { filter := m.filter, buf := eraseAll pageSize m.log mem, done := m.done }

theorem filterRound_eq (q : Nat) (mem : Nat → List UInt8) (m : Marks) :
    filterRound pageSize q (m.threads pageSize mem) =
      (markRound pageSize q m).map (Marks.threads pageSize mem) := by
  have hd : (m.threads pageSize mem).done = m.done := rfl
  have hf : (m.threads pageSize mem).filter = m.filter := rfl
  unfold filterRound markRound
  by_cases hq : q ∈ m.done
  · rw [if_pos (hd ▸ hq), if_pos hq]
    rfl
  · rw [if_neg (hd ▸ hq), if_neg hq, hf]
    cases extractFilterInfo (q * pageSize) (q * pageSize + pageSize) m.filter with
    | none => rfl
    | some r => simp only [Option.map_some, Marks.threads, eraseAll_snoc]

theorem runThreads_eq (mem : Nat → List UInt8) : ∀ (sched : List Nat) (m : Marks),
    runThreads pageSize sched (m.threads pageSize mem) =
      (runMarks pageSize sched m).map (Marks.threads pageSize mem)
  | [], _ => rfl
  | q :: sched, m => by
    rw [runThreads, runMarks, filterRound_eq]
    cases markRound pageSize q m with
    | none => rfl
    | some m1 => exact runThreads_eq mem sched m1

/-! ## One process -/

/-- The rounds of the pages one after the other, each page with at least its last round. -/
inductive Sequential : List Nat → List Nat → Prop
  | nil : Sequential [] []
  | cons (q n : Nat) {pages sched : List Nat} : Sequential pages sched →
      Sequential (q :: pages) (List.replicate (n + 1) q ++ sched)

theorem filterDataBuffer_none {buf : List UInt8} {paddr size : Nat} {s : Filter}
    (h : extractFilterInfo paddr (paddr + size) s = none) :
    filterDataBuffer buf paddr size s = (buf, s) := by
  rw [filterDataBuffer]
  split
  · rfl
  · rename_i fi s' h'
    rw [h] at h'
    cases h'

theorem filterDataBuffer_some {buf : List UInt8} {paddr size : Nat} {s s' : Filter}
    {fi : FilterInfo} (h : extractFilterInfo paddr (paddr + size) s = some (fi, s')) :
    filterDataBuffer buf paddr size s = filterDataBuffer (fi.erase paddr buf) paddr size s' := by
  rw [filterDataBuffer]
  split
  · rename_i h'
    rw [h] at h'
    cases h'
  · rename_i fi' s'' h'
    rw [h] at h'
    cases h'
    rfl

theorem filterDataBuffer_run (q : Nat) (m : Marks) (hq : q ∉ m.done) :
    ∃ n m', runMarks pageSize (List.replicate (n + 1) q) m = some m' ∧ m'.done = q :: m.done ∧
      ∀ mem, filterDataBuffer (eraseAll pageSize m.log mem q) (q * pageSize) pageSize m.filter =
          (eraseAll pageSize m'.log mem q, m'.filter) ∧
        eraseAll pageSize m'.log mem =
          Function.update (eraseAll pageSize m.log mem) q (eraseAll pageSize m'.log mem q) := by
  generalize hc : m.filter.filterInfo.countP
    (fun f => q * pageSize ≤ f.paddr ∧ f.paddr < q * pageSize + pageSize) = c
  induction c using Nat.strongRecOn generalizing m with
  | ind c ih =>
    cases he : extractFilterInfo (q * pageSize) (q * pageSize + pageSize) m.filter with
    | none =>
      refine ⟨0, { m with done := q :: m.done }, ?_, rfl, fun mem => ⟨filterDataBuffer_none he, ?_⟩⟩
      · simp [runMarks, markRound, hq, he]
      · simp
    | some r =>
      obtain ⟨fi, s'⟩ := r
      have hlt := extractFilterInfo_count he
      obtain ⟨n, m', hr, hd, hm⟩ :=
        ih _ (hc ▸ hlt) { m with filter := s', log := m.log ++ [(q, fi)] } hq rfl
      refine ⟨n + 1, m', ?_, hd, fun mem => ?_⟩
      · rw [List.replicate_succ, runMarks]
        simpa [markRound, hq, he] using hr
      · obtain ⟨h1, h2⟩ := hm mem
        simp only [eraseAll_snoc, Function.update_self, Function.update_idem] at h1 h2
        exact ⟨(filterDataBuffer_some he).trans h1, h2⟩

/-- **One process** runs the rounds of its pages one page after the other. -/
theorem filterPages_run : ∀ (pages : List Nat) (m : Marks), pages.Nodup →
    (∀ q ∈ pages, q ∉ m.done) →
    ∃ sched m', Sequential pages sched ∧ runMarks pageSize sched m = some m' ∧
      (∀ q ∈ pages, q ∈ m'.done) ∧
      ∀ mem, filterPages pageSize pages m.filter (eraseAll pageSize m.log mem) =
        (m'.filter, eraseAll pageSize m'.log mem)
  | [], m, _, _ => ⟨[], m, .nil, rfl, by simp, fun _ => rfl⟩
  | q :: pages, m, hnd, hdone => by
    obtain ⟨hq, hnd⟩ := List.nodup_cons.1 hnd
    obtain ⟨n, m1, hr1, hd1, hm1⟩ := filterDataBuffer_run q m (hdone q (by simp))
    obtain ⟨sched, m', hs, hr', hd', hm'⟩ := filterPages_run pages m1 hnd fun k hk => by
      rw [hd1]
      intro hc
      rcases List.mem_cons.1 hc with rfl | hc
      · exact hq hk
      · exact hdone k (List.mem_cons_of_mem _ hk) hc
    have happ : runMarks pageSize (List.replicate (n + 1) q ++ sched) m = some m' := by
      rw [runMarks_append, hr1]
      exact hr'
    refine ⟨_, m', .cons q n hs, happ, fun k hk => ?_, fun mem => ?_⟩
    · rcases List.mem_cons.1 hk with rfl | hk
      · exact runMarks_keeps hr' (by simp [hd1])
      · exact hd' k hk
    · obtain ⟨h1, h2⟩ := hm1 mem
      rw [filterPages, h1]
      dsimp only
      rw [← h2]
      exact hm' mem

/-! ## The bytes of a log -/

/-- The entry covers the address. -/
def FilterInfo.Covers (f : FilterInfo) (a : Nat) : Prop := f.paddr ≤ a ∧ a < f.paddr + f.size

theorem byteAt_erase {fi : FilterInfo} {p o : Nat} (hp : p ≤ fi.paddr) (buf : List UInt8)
    (h : fi.Covers (p + o)) : byteAt (fi.erase p buf) o = fi.fill := by
  unfold FilterInfo.Covers at h
  unfold FilterInfo.erase
  rw [byteAt_pwrite, List.length_replicate, if_pos (by omega)]
  simp only [List.getD_eq_getElem?_getD, List.getElem?_replicate]
  rw [if_pos (by omega)]
  rfl

theorem byteAt_erase_of_not {fi : FilterInfo} {p o : Nat} (hp : p ≤ fi.paddr) (buf : List UInt8)
    (h : ¬ fi.Covers (p + o)) : byteAt (fi.erase p buf) o = byteAt buf o := by
  unfold FilterInfo.Covers at h
  unfold FilterInfo.erase
  rw [byteAt_pwrite, List.length_replicate, if_neg (by omega)]

/-- A byte that no extraction of its page covers is unchanged. -/
theorem eraseAll_untouched {q o : Nat} (mem : Nat → List UInt8) (log : List (Nat × FilterInfo))
    (hin : ∀ e ∈ log, e.1 * pageSize ≤ e.2.paddr)
    (h : ∀ e ∈ log, e.1 = q → ¬ e.2.Covers (q * pageSize + o)) :
    byteAt (eraseAll pageSize log mem q) o = byteAt (mem q) o := by
  induction log using List.reverseRecOn with
  | nil => rfl
  | append_singleton log e ih =>
    obtain ⟨k, fi⟩ := e
    have ih := ih (fun e he => hin e (by simp [he])) (fun e he => h e (by simp [he]))
    rw [eraseAll_snoc]
    by_cases hk : q = k
    · subst hk
      rw [Function.update_self,
        byteAt_erase_of_not (hin (q, fi) (by simp)) _ (h (q, fi) (by simp) rfl), ih]
    · rw [Function.update_of_ne hk, ih]

/-- A byte covered by an extraction of its page has the fill of the last one. -/
theorem eraseAll_covered {q o : Nat} (log : List (Nat × FilterInfo))
    (hin : ∀ e ∈ log, e.1 * pageSize ≤ e.2.paddr)
    (h : ∃ e ∈ log, e.1 = q ∧ e.2.Covers (q * pageSize + o)) :
    ∃ e ∈ log, ∀ mem, byteAt (eraseAll pageSize log mem q) o = e.2.fill := by
  induction log using List.reverseRecOn with
  | nil =>
    obtain ⟨e, he, -⟩ := h
    cases he
  | append_singleton log e ih =>
    obtain ⟨k, fi⟩ := e
    by_cases hc : k = q ∧ fi.Covers (q * pageSize + o)
    · obtain ⟨rfl, hc⟩ := hc
      refine ⟨(k, fi), by simp, fun mem => ?_⟩
      rw [eraseAll_snoc, Function.update_self, byteAt_erase (hin (k, fi) (by simp)) _ hc]
    · obtain ⟨e, he, heq, hcov⟩ := h
      have he : e ∈ log := by
        rcases List.mem_append.1 he with he | he
        · exact he
        · rw [List.mem_singleton.1 he] at heq hcov
          exact absurd ⟨heq, hcov⟩ hc
      obtain ⟨e', he', hb⟩ := ih (fun e he => hin e (by simp [he])) ⟨e, he, heq, hcov⟩
      refine ⟨e', by simp [he'], fun mem => ?_⟩
      rw [eraseAll_snoc]
      by_cases hk : q = k
      · subst hk
        rw [Function.update_self,
          byteAt_erase_of_not (hin (q, fi) (by simp)) _ fun hcov => hc ⟨rfl, hcov⟩, hb]
      · rw [Function.update_of_ne hk, hb]

/-! ## One page -/

/-- The entries of a list cover no new address. -/
def Within (l l' : List FilterInfo) : Prop := ∀ f ∈ l, ∀ a, f.Covers a → ∃ g ∈ l', g.Covers a

theorem within_refl (l : List FilterInfo) : Within l l := fun f hf _ ha => ⟨f, hf, ha⟩

theorem Within.trans {l1 l2 l3 : List FilterInfo} (h : Within l1 l2) (h' : Within l2 l3) :
    Within l1 l3 := fun f hf a ha => by
  obtain ⟨g, hg, hga⟩ := h f hf a ha
  exact h' g hg a hga

theorem extractFilterInfo_within {a e : Nat} {s s' : Filter} {fi : FilterInfo}
    (h : extractFilterInfo a e s = some (fi, s')) :
    Within s'.filterInfo s.filterInfo ∧ a ≤ fi.paddr ∧ fi.paddr + fi.size ≤ e ∧
      ∀ x, fi.Covers x → ∃ g ∈ s.filterInfo, g.Covers x := by
  obtain ⟨pre, f, post, hl, h1, h2, rfl, hl'⟩ := extractNode_cases (extractFilterInfo_node h)
  have hf : f ∈ s.filterInfo := by simp [hl]
  refine ⟨fun g hg x hx => ?_, h1, ?_, fun x hx => ⟨f, hf, ?_⟩⟩
  · rw [hl'] at hg
    simp only [List.mem_append] at hg
    rcases hg with (hg | hg) | hg
    · exact ⟨g, by simp [hl, hg], hx⟩
    · split at hg
      · cases hg
      · rw [List.mem_singleton.1 hg] at hx
        unfold FilterInfo.Covers splitFilterInfo at hx
        dsimp only at hx
        exact ⟨f, hf, by unfold FilterInfo.Covers; omega⟩
    · exact ⟨g, by simp [hl, hg], hx⟩
  · show f.paddr + min f.size _ ≤ e
    omega
  · unfold FilterInfo.Covers at hx ⊢
    dsimp only at hx
    omega

theorem length_erase {fi : FilterInfo} {p n : Nat} {buf : List UInt8} (h1 : p ≤ fi.paddr)
    (h2 : fi.paddr + fi.size ≤ p + n) (hlen : buf.length = n) : (fi.erase p buf).length = n := by
  by_cases hz : fi.size = 0
  · simpa [FilterInfo.erase, hz] using hlen
  · rw [FilterInfo.erase, length_pwrite, if_neg (by simpa using hz), List.length_replicate]
    omega

/-- **A page keeps the bytes that no entry covers**, and its length. -/
theorem filterDataBuffer_keeps {p n : Nat} {buf : List UInt8} {s : Filter} (hlen : buf.length = n) :
    (filterDataBuffer buf p n s).1.length = n ∧
      Within (filterDataBuffer buf p n s).2.filterInfo s.filterInfo ∧
      ∀ o, (∀ f ∈ s.filterInfo, ¬ f.Covers (p + o)) →
        byteAt (filterDataBuffer buf p n s).1 o = byteAt buf o := by
  generalize hc : s.filterInfo.countP (fun f => p ≤ f.paddr ∧ f.paddr < p + n) = k
  induction k using Nat.strongRecOn generalizing s buf with
  | ind k ih =>
    cases he : extractFilterInfo p (p + n) s with
    | none =>
      rw [filterDataBuffer_none he]
      exact ⟨hlen, within_refl _, fun _ _ => rfl⟩
    | some r =>
      obtain ⟨fi, s'⟩ := r
      obtain ⟨hw, h1, h2, hcov⟩ := extractFilterInfo_within he
      obtain ⟨i1, i2, i3⟩ := ih _ (hc ▸ extractFilterInfo_count he) (length_erase h1 h2 hlen) rfl
      rw [filterDataBuffer_some he]
      refine ⟨i1, i2.trans hw, fun o ho => ?_⟩
      rw [i3 o fun f hf hx => ?_, byteAt_erase_of_not h1 _ fun hx => ?_]
      · obtain ⟨g, hg, hgx⟩ := hcov _ hx
        exact ho g hg hgx
      · obtain ⟨g, hg, hgx⟩ := hw f hf _ hx
        exact ho g hg hgx

end Erase
