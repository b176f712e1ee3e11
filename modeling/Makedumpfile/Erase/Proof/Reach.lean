import Makedumpfile.Erase.Proof.Log

/-!
# Erase requests and the pages they reach

A request reaches a page only through the pages before it: the rest of an entry is put back when the
page it starts in takes its part (`Inv`), and a page whose loop has ended does not look again. So
a byte is erased when some request that covers it has all its pages up to that one passed, finishing
in increasing order (`runMarks_covered`), and one process erases no other byte
(`filter_erases`). What is overwritten is always a requested byte, with a request's fill.
-/

namespace Erase

open Lib ByteFile

/-! ## Requests and the list -/

section
variable (vaddrToPaddr : Nat → Nat)

def Request.paddr : Request → Nat
  | .symbol _ _ symAddr _ _ => vaddrToPaddr symAddr
  | .raw symAddr _ _ => vaddrToPaddr symAddr

/-- The bytes asked for; `update_filter_info` refuses a null symbol and an empty size. -/
def Request.len : Request → Nat
  | .symbol _ _ symAddr size _ => if symAddr = 0 ∨ size ≤ 0 then 0 else size.toNat
  | .raw _ _ len => len

def Request.fill : Request → UInt8
  | .symbol _ _ _ _ nullify => if nullify then 0 else 88
  | .raw _ ch _ => ch

def Request.Covers (r : Request) (a : Nat) : Prop :=
  r.paddr vaddrToPaddr ≤ a ∧ a < r.paddr vaddrToPaddr + r.len

/-- The byte at address `a` is in a requested range. -/
def Requested (reqs : List Request) (a : Nat) : Prop := ∃ r ∈ reqs, r.Covers vaddrToPaddr a

end

theorem insertFilterInfo_mem {fl f : FilterInfo} : ∀ {l : List FilterInfo},
    f ∈ (insertFilterInfo fl l).2 → f = fl ∨ f ∈ l ∨
      ∃ g ∈ l, f.fill = g.fill ∧ f.paddr = fl.paddr ∧ f.size = fl.size
  | [], h => by simpa [insertFilterInfo] using h
  | p :: l, h => by
    unfold insertFilterInfo at h
    split at h
    · split at h
      · rename_i he
        rcases List.mem_cons.1 h with rfl | h
        · by_cases hs : fl.size > p.size
          · exact .inr (.inr ⟨p, by simp, rfl, he.symm, by simp [hs]⟩)
          · refine .inr (.inl ?_)
            simp [hs]
        · exact .inr (.inl (by simp [h]))
      · rcases List.mem_cons.1 h with rfl | h
        · exact .inl rfl
        · exact .inr (.inl h)
    · rcases List.mem_cons.1 h with rfl | h
      · exact .inr (.inl (by simp))
      · rcases insertFilterInfo_mem h with h | h | ⟨g, hg, h⟩
        · exact .inl h
        · exact .inr (.inl (by simp [h]))
        · exact .inr (.inr ⟨g, by simp [hg], h⟩)

/-- An insertion loses no byte, and the bytes keep the start of their entry. -/
theorem insertFilterInfo_covers (fl : FilterInfo) {a : Nat} : ∀ (l : List FilterInfo)
    {g : FilterInfo}, g = fl ∨ g ∈ l → g.Covers a →
      ∃ f ∈ (insertFilterInfo fl l).2, f.paddr = g.paddr ∧ f.Covers a
  | [], g, hg, hc => by
    obtain rfl : g = fl := by simpa using hg
    exact ⟨g, by simp [insertFilterInfo], rfl, hc⟩
  | p :: l, g, hg, hc => by
    unfold insertFilterInfo
    split
    · split
      · rename_i he
        have hmax : ∀ x : FilterInfo, x.Covers a → x.paddr = p.paddr → x.size ≤ fl.size ∨
            x.size ≤ p.size → ∃ f ∈ ({ p with size := if fl.size > p.size then fl.size
              else p.size } :: l), f.paddr = x.paddr ∧ f.Covers a := by
          intro x hx hp hs
          refine ⟨_, List.mem_cons_self, hp.symm, ?_⟩
          unfold FilterInfo.Covers at hx ⊢
          dsimp only
          split <;> omega
        rcases hg with rfl | hg
        · exact hmax g hc he (.inl (Nat.le_refl _))
        · rcases List.mem_cons.1 hg with rfl | hg
          · exact hmax g hc rfl (.inr (Nat.le_refl _))
          · exact ⟨g, List.mem_cons_of_mem _ hg, rfl, hc⟩
      · refine ⟨g, ?_, rfl, hc⟩
        rcases hg with rfl | hg
        · exact List.mem_cons_self
        · exact List.mem_cons_of_mem _ hg
    · by_cases hp : g = p
      · exact ⟨g, by simp [hp], rfl, hc⟩
      · have hg : g = fl ∨ g ∈ l := by simpa [hp] using hg
        obtain ⟨f, hf, h⟩ := insertFilterInfo_covers fl l hg hc
        exact ⟨f, List.mem_cons_of_mem _ hf, h⟩

section
variable (vaddrToPaddr : Nat → Nat)

/-- `enter` inserts a node with the request's start, size and fill, or refuses an empty one. -/
theorem enter_filterInfo (s : Filter) (r : Request) :
    (r.len = 0 ∧ (enter vaddrToPaddr s r).filterInfo = s.filterInfo) ∨
      ∃ fl : FilterInfo, fl.paddr = r.paddr vaddrToPaddr ∧ fl.size = r.len ∧ fl.fill = r.fill ∧
        (enter vaddrToPaddr s r).filterInfo = (insertFilterInfo fl s.filterInfo).2 := by
  cases r with
  | symbol entry expr symAddr size nullify =>
    simp only [enter, updateFilterInfo, Request.len]
    by_cases h1 : symAddr = 0
    · rw [if_pos h1, if_pos (.inl h1)]
      exact .inl ⟨rfl, rfl⟩
    · by_cases h2 : size ≤ 0
      · rw [if_neg h1, if_pos h2, if_pos (.inr h2)]
        exact .inl ⟨rfl, rfl⟩
      · rw [if_neg h1, if_neg h2, if_neg (not_or.2 ⟨h1, h2⟩)]
        split
        · exact .inr ⟨_, rfl, rfl, rfl, rfl⟩
        · exact .inr ⟨_, rfl, rfl, rfl, rfl⟩
  | raw symAddr ch len => exact .inr ⟨_, rfl, rfl, rfl, rfl⟩

/-- The entries of a list come from the requests, and hold all their bytes. -/
structure Gathered (reqs : List Request) (l : List FilterInfo) :
    Prop where
  fill : ∀ f ∈ l, ∃ r ∈ reqs, r.fill = f.fill
  origin : ∀ f ∈ l, ∃ r ∈ reqs, r.paddr vaddrToPaddr = f.paddr ∧ r.len = f.size
  covers : ∀ r ∈ reqs, ∀ a, r.Covers vaddrToPaddr a →
    ∃ f ∈ l, f.paddr = r.paddr vaddrToPaddr ∧ f.Covers a

variable {vaddrToPaddr}

theorem Gathered.enter {reqs : List Request} {s : Filter}
    (h : Gathered vaddrToPaddr reqs s.filterInfo) (r : Request) :
    Gathered vaddrToPaddr (reqs ++ [r]) (enter vaddrToPaddr s r).filterInfo := by
  rcases enter_filterInfo vaddrToPaddr s r with ⟨h0, he⟩ | ⟨fl, hp, hs, hf, he⟩
  · rw [he]
    refine ⟨fun f hf => ?_, fun f hf => ?_, fun r' hr' a ha => ?_⟩
    · obtain ⟨r', hr', h'⟩ := h.fill f hf
      exact ⟨r', by simp [hr'], h'⟩
    · obtain ⟨r', hr', h'⟩ := h.origin f hf
      exact ⟨r', by simp [hr'], h'⟩
    · rcases List.mem_append.1 hr' with hr' | hr'
      · exact h.covers r' hr' a ha
      · rw [List.mem_singleton.1 hr'] at ha
        unfold Request.Covers at ha
        omega
  · rw [he]
    refine ⟨fun f hm => ?_, fun f hm => ?_, fun r' hr' a ha => ?_⟩
    · rcases insertFilterInfo_mem hm with rfl | hm | ⟨g, hg, hfill, -⟩
      · exact ⟨r, by simp, hf.symm⟩
      · obtain ⟨r', hr', h'⟩ := h.fill f hm
        exact ⟨r', by simp [hr'], h'⟩
      · obtain ⟨r', hr', h'⟩ := h.fill g hg
        exact ⟨r', by simp [hr'], h'.trans hfill.symm⟩
    · rcases insertFilterInfo_mem hm with rfl | hm | ⟨g, hg, -, hpg, hsg⟩
      · exact ⟨r, by simp, hp.symm, hs.symm⟩
      · obtain ⟨r', hr', h'⟩ := h.origin f hm
        exact ⟨r', by simp [hr'], h'⟩
      · exact ⟨r, by simp, by rw [hpg, hp], by rw [hsg, hs]⟩
    · rcases List.mem_append.1 hr' with hr' | hr'
      · obtain ⟨g, hg, hgp, hgc⟩ := h.covers r' hr' a ha
        obtain ⟨f, hf, hfp, hfc⟩ := insertFilterInfo_covers fl _ (.inr hg) hgc
        exact ⟨f, hf, hfp.trans hgp, hfc⟩
      · rw [List.mem_singleton.1 hr'] at ha ⊢
        have hc : fl.Covers a := by
          unfold Request.Covers at ha
          unfold FilterInfo.Covers
          omega
        obtain ⟨f, hf, hfp, hfc⟩ := insertFilterInfo_covers fl s.filterInfo (.inl rfl) hc
        exact ⟨f, hf, hfp.trans hp, hfc⟩

theorem gathered (reqs : List Request) :
    Gathered vaddrToPaddr reqs (gatherFilterInfo vaddrToPaddr reqs).filterInfo := by
  induction reqs using List.reverseRecOn with
  | nil => exact ⟨by simp [gatherFilterInfo], by simp [gatherFilterInfo], by simp⟩
  | append_singleton reqs r ih =>
    unfold gatherFilterInfo at ih ⊢
    rw [List.foldl_append]
    exact ih.enter r

end

/-! ## Orders of rounds -/

/-- Some round of `k` comes before some round of `k'`. -/
def StartsBefore (sched : List Nat) (k k' : Nat) : Prop :=
  ∃ s1 s2, sched = s1 ++ s2 ∧ k ∈ s1 ∧ k' ∈ s2

/-- The last round of `k` comes before the last round of `k'`. -/
def FinishesBefore (sched : List Nat) (k k' : Nat) : Prop :=
  ∃ s1 s2, sched = s1 ++ s2 ∧ k ∈ s1 ∧ k ∉ s2 ∧ k' ∈ s2

theorem StartsBefore.append {sched : List Nat} {k k' : Nat} (h : StartsBefore sched k k')
    (s : List Nat) : StartsBefore (sched ++ s) k k' := by
  obtain ⟨s1, s2, rfl, h1, h2⟩ := h
  exact ⟨s1, s2 ++ s, by simp, h1, by simp [h2]⟩

/-- The last round of `k'` is not followed by one of `k`. -/
theorem FinishesBefore.not_last {s1 s2 : List Nat} {k k' : Nat}
    (h : FinishesBefore (s1 ++ k' :: s2) k k') (hk : k ∈ s2) : k' ∈ s2 := by
  obtain ⟨t1, t2, he, -, h2, h3⟩ := h
  rcases List.append_eq_append_iff.1 he with ⟨as, rfl, ht⟩ | ⟨as, rfl, rfl⟩
  · cases as with
    | nil =>
      rw [← show k' :: s2 = t2 from ht] at h2
      exact absurd (List.mem_cons_of_mem _ hk) h2
    | cons x as =>
      simp only [List.cons_append, List.cons.injEq] at ht
      rw [ht.2]
      exact List.mem_append_right _ h3
  · exact absurd (by simp [hk]) h2

theorem Sequential.mem {pages sched : List Nat} (h : Sequential pages sched) {k : Nat} :
    k ∈ sched ↔ k ∈ pages := by
  induction h with
  | nil => rfl
  | cons q n h ih => simp [ih]

theorem Sequential.split : ∀ {p1 p2 sched : List Nat}, Sequential (p1 ++ p2) sched →
    ∃ s1 s2, sched = s1 ++ s2 ∧ Sequential p1 s1 ∧ Sequential p2 s2
  | [], _, sched, h => ⟨[], sched, rfl, .nil, h⟩
  | p :: p1, _, _, .cons _ n h => by
    obtain ⟨s1, s2, rfl, h1, h2⟩ := Sequential.split h
    exact ⟨_, s2, by simp, .cons p n h1, h2⟩

theorem Sequential.finishesBefore {pages sched : List Nat} (h : Sequential pages sched) {k k' : Nat}
    (hf : FinishesBefore pages k k') : FinishesBefore sched k k' := by
  obtain ⟨p1, p2, rfl, h1, h2, h3⟩ := hf
  obtain ⟨s1, s2, rfl, hs1, hs2⟩ := h.split
  exact ⟨s1, s2, rfl, hs1.mem.2 h1, fun hc => h2 (hs2.mem.1 hc), hs2.mem.2 h3⟩

/-- One page after the other: who starts first has finished first. -/
theorem Sequential.startsBefore {pages sched : List Nat} (h : Sequential pages sched)
    (hnd : pages.Nodup) {k k' : Nat} (hne : k ≠ k') (hs : StartsBefore sched k k') :
    FinishesBefore pages k k' := by
  induction h with
  | nil =>
    obtain ⟨s1, s2, he, h1, -⟩ := hs
    rw [(List.append_eq_nil_iff.1 he.symm).1] at h1
    cases h1
  | @cons q n pages sched h ih =>
    obtain ⟨hq, hnd⟩ := List.nodup_cons.1 hnd
    obtain ⟨s1, s2, he, h1, h2⟩ := hs
    by_cases hkq : k = q
    · subst hkq
      have hk' : k' ∈ List.replicate (n + 1) k ++ sched := by
        rw [he]
        exact List.mem_append_right _ h2
      have hk' : k' ∈ sched := by
        rcases List.mem_append.1 hk' with hk' | hk'
        · exact absurd (List.eq_of_mem_replicate hk').symm hne
        · exact hk'
      exact ⟨[k], pages, rfl, by simp, hq, h.mem.1 hk'⟩
    · -- the rounds of `q` all come before the first of `k`
      rcases List.append_eq_append_iff.1 he with ⟨as, rfl, ht⟩ | ⟨as, has, rfl⟩
      · have h1 : k ∈ as := by
          rcases List.mem_append.1 h1 with h1 | h1
          · exact absurd (List.eq_of_mem_replicate h1) hkq
          · exact h1
        obtain ⟨p1, p2, hp, hk1, hk2, hk3⟩ := ih hnd ⟨as, s2, ht, h1, h2⟩
        exact ⟨q :: p1, p2, by rw [hp]; rfl, by simp [hk1], hk2, hk3⟩
      · have : k ∈ List.replicate (n + 1) q := by
          rw [has]
          exact List.mem_append_left _ h1
        exact absurd (List.eq_of_mem_replicate this) hkq

/-! ## Where an entry comes from -/

section
variable {vaddrToPaddr : Nat → Nat} {reqs : List Request} {pageSize : Nat}

/-- The pages from `first` up to `c` had rounds, in increasing order. -/
structure Came (sched : List Nat) (first c : Nat) : Prop where
  passed : ∀ k, first ≤ k → k < c → k ∈ sched
  order : ∀ k k', first ≤ k → k < k' → k' < c → StartsBefore sched k k'

theorem Came.append {sched : List Nat} {first c : Nat} (h : Came sched first c) (s : List Nat) :
    Came (sched ++ s) first c :=
  ⟨fun k h1 h2 => List.mem_append_left _ (h.passed k h1 h2),
    fun k k' h1 h2 h3 => (h.order k k' h1 h2 h3).append s⟩

theorem Came.round {sched : List Nat} {first q : Nat} (h : Came sched first q) :
    Came (sched ++ [q]) first (q + 1) := by
  refine ⟨fun k h1 h2 => ?_, fun k k' h1 h2 h3 => ?_⟩
  · by_cases hk : k = q
    · simp [hk]
    · exact List.mem_append_left _ (h.passed k h1 (by omega))
  · by_cases hk : k' = q
    · subst hk
      exact ⟨sched, [k'], rfl, h.passed k h1 h2, by simp⟩
    · exact (h.order k k' h1 h2 (by omega)).append _

/-- The entry is a part of a request whose earlier pages had their rounds. -/
structure Origin (vaddrToPaddr : Nat → Nat) (reqs : List Request) (pageSize : Nat)
    (sched : List Nat) (f : FilterInfo) (c : Nat) : Prop where
  fill : ∃ r ∈ reqs, r.fill = f.fill
  request : ∃ r ∈ reqs, r.paddr vaddrToPaddr ≤ f.paddr ∧
    f.paddr + f.size ≤ r.paddr vaddrToPaddr + r.len ∧
    Came sched (r.paddr vaddrToPaddr / pageSize) c

structure Inv (vaddrToPaddr : Nat → Nat) (reqs : List Request) (pageSize : Nat)
    (sched : List Nat) (m : Marks) : Prop where
  entries : ∀ f ∈ m.filter.filterInfo,
    Origin vaddrToPaddr reqs pageSize sched f (f.paddr / pageSize)
  logged : ∀ e ∈ m.log, e.2.paddr / pageSize = e.1 ∧
    Origin vaddrToPaddr reqs pageSize sched e.2 (e.1 + 1)

theorem Origin.append {sched : List Nat} {f : FilterInfo} {c : Nat}
    (h : Origin vaddrToPaddr reqs pageSize sched f c) (s : List Nat) :
    Origin vaddrToPaddr reqs pageSize (sched ++ s) f c := by
  obtain ⟨r, hr, h1, h2, h3⟩ := h.request
  exact ⟨h.fill, r, hr, h1, h2, h3.append s⟩

theorem page_eq {q a : Nat} (h1 : q * pageSize ≤ a) (h2 : a < q * pageSize + pageSize) :
    a / pageSize = q :=
  Nat.div_eq_of_lt_le h1 (by rw [Nat.succ_mul]; exact h2)

/-- The part taken by page `q`, and what stays in the list for the next page. -/
theorem Origin.extract {sched : List Nat} {f : FilterInfo} {q : Nat}
    (h : Origin vaddrToPaddr reqs pageSize sched f (f.paddr / pageSize))
    (h1 : q * pageSize ≤ f.paddr) (h2 : f.paddr < q * pageSize + pageSize) :
    Origin vaddrToPaddr reqs pageSize (sched ++ [q])
        { f with size := min f.size (q * pageSize + pageSize - f.paddr) } (q + 1) ∧
      (¬ f.size ≤ q * pageSize + pageSize - f.paddr →
        Origin vaddrToPaddr reqs pageSize (sched ++ [q])
          (splitFilterInfo f (q * pageSize + pageSize)
            (f.size - (q * pageSize + pageSize - f.paddr))) (q + 1)) := by
  obtain ⟨r, hr, hle, hend, hcame⟩ := h.request
  rw [page_eq h1 h2] at hcame
  refine ⟨⟨h.fill, r, hr, hle, ?_, hcame.round⟩, fun hs => ⟨h.fill, r, hr, ?_, ?_, hcame.round⟩⟩
  · show f.paddr + min f.size _ ≤ _
    omega
  · show r.paddr vaddrToPaddr ≤ q * pageSize + pageSize
    omega
  · show q * pageSize + pageSize + (f.size - _) ≤ _
    omega

theorem Inv.round {sched : List Nat} {m m' : Marks} {q : Nat} (hp : 0 < pageSize)
    (h : Inv vaddrToPaddr reqs pageSize sched m) (hr : markRound pageSize q m = some m') :
    Inv vaddrToPaddr reqs pageSize (sched ++ [q]) m' := by
  obtain ⟨-, ⟨-, rfl⟩ | ⟨fi, s', he, rfl⟩⟩ := markRound_cases hr
  · exact ⟨fun f hf => (h.entries f hf).append _,
      fun e he => ⟨(h.logged e he).1, (h.logged e he).2.append _⟩⟩
  · obtain ⟨pre, f, post, hl, h1, h2, hfi, hl'⟩ := extractNode_cases (extractFilterInfo_node he)
    obtain ⟨hpart, hrest⟩ := (h.entries f (by simp [hl])).extract h1 h2
    refine ⟨fun g hg => ?_, fun e hm => ?_⟩
    · have hold : g ∈ m.filter.filterInfo →
          Origin vaddrToPaddr reqs pageSize (sched ++ [q]) g (g.paddr / pageSize) :=
        fun hm => (h.entries g hm).append _
      have hg : g ∈ s'.filterInfo := hg
      rw [hl'] at hg
      rw [hl] at hold
      rcases List.mem_append.1 hg with hg | hg
      · rcases List.mem_append.1 hg with hg | hg
        · exact hold (by simp [hg])
        · split at hg
          · cases hg
          · rename_i hs
            rw [List.mem_singleton.1 hg]
            have hpage : (q * pageSize + pageSize) / pageSize = q + 1 := by
              rw [← Nat.succ_mul, Nat.mul_div_cancel _ hp]
            simpa [splitFilterInfo, hpage] using hrest hs
      · exact hold (by simp [hg])
    · rcases List.mem_append.1 hm with hm | hm
      · exact ⟨(h.logged e hm).1, (h.logged e hm).2.append _⟩
      · rw [List.mem_singleton.1 hm, hfi]
        exact ⟨page_eq h1 h2, hpart⟩

theorem Inv.run (hp : 0 < pageSize) : ∀ (s2 : List Nat) {s1 : List Nat} {m m' : Marks},
    Inv vaddrToPaddr reqs pageSize s1 m → runMarks pageSize s2 m = some m' →
    Inv vaddrToPaddr reqs pageSize (s1 ++ s2) m'
  | [], s1, m, m', h, hr => by
    cases hr
    simpa using h
  | q :: s2, s1, m, m', h, hr => by
    obtain ⟨m1, h1, h2⟩ := runMarks_cons hr
    simpa using Inv.run hp s2 (h.round hp h1) h2

theorem Inv.init (reqs : List Request) :
    Inv vaddrToPaddr reqs pageSize [] { filter := gatherFilterInfo vaddrToPaddr reqs } := by
  have hg := @gathered vaddrToPaddr reqs
  refine ⟨fun f hf => ⟨hg.fill f hf, ?_⟩, by simp⟩
  obtain ⟨r, hr, h1, h2⟩ := hg.origin f hf
  refine ⟨r, hr, by omega, by omega, ?_⟩
  rw [h1]
  exact ⟨fun k _ _ => by omega, fun k k' _ _ _ => by omega⟩

/-! ## Bytes that are reached -/

/-- Page `q` has erased the byte at `a`, or an entry covers it and starts in a page from which on
no page up to `q` has finished. -/
def Live (pageSize first q a : Nat) (m : Marks) : Prop :=
  (∃ e ∈ m.log, e.1 = q ∧ e.2.Covers a) ∨
    ∃ f ∈ m.filter.filterInfo, f.Covers a ∧ first ≤ f.paddr / pageSize ∧
      ∀ k, f.paddr / pageSize ≤ k → k ≤ q → k ∉ m.done

theorem Live.extract {first q a k : Nat} {m : Marks} {fi : FilterInfo} {s' : Filter}
    (hp : 0 < pageSize) (hq : a / pageSize = q) (h : Live pageSize first q a m)
    (he : extractFilterInfo (k * pageSize) (k * pageSize + pageSize) m.filter = some (fi, s')) :
    Live pageSize first q a { m with filter := s', log := m.log ++ [(k, fi)] } := by
  rcases h with ⟨e, hm, h⟩ | ⟨f, hf, hc, hfirst, hnd⟩
  · exact .inl ⟨e, by simp [hm], h⟩
  · obtain ⟨pre, g, post, hl, h1, h2, hfi, hl'⟩ := extractNode_cases (extractFilterInfo_node he)
    have hkeep : f ∈ pre ∨ f ∈ post → Live pageSize first q a
        { m with filter := s', log := m.log ++ [(k, fi)] } := fun hm => by
      refine .inr ⟨f, ?_, hc, hfirst, hnd⟩
      show f ∈ s'.filterInfo
      rw [hl']
      simp only [List.mem_append]
      exact hm.imp .inl id
    rw [hl] at hf
    rcases List.mem_append.1 hf with hf | hf
    · exact hkeep (.inl hf)
    rcases List.mem_cons.1 hf with rfl | hf
    · -- the entry itself is taken: the byte is in the part of this page, or in the rest
      have hpage := page_eq h1 h2
      unfold FilterInfo.Covers at hc
      by_cases ha : a < k * pageSize + pageSize
      · refine .inl ⟨(k, fi), by simp, ?_, ?_⟩
        · rw [← hq]
          exact (page_eq (by omega) ha).symm
        · rw [hfi]
          unfold FilterInfo.Covers
          dsimp only
          omega
      · refine .inr ⟨splitFilterInfo f (k * pageSize + pageSize)
          (f.size - (k * pageSize + pageSize - f.paddr)), ?_, ?_, ?_, fun k' hk' hk'q => ?_⟩
        · show _ ∈ s'.filterInfo
          rw [hl', if_neg (by omega)]
          simp
        · unfold FilterInfo.Covers splitFilterInfo
          dsimp only
          omega
        · show first ≤ (k * pageSize + pageSize) / pageSize
          rw [← Nat.succ_mul, Nat.mul_div_cancel _ hp]
          omega
        · have hk' : (k * pageSize + pageSize) / pageSize ≤ k' := hk'
          rw [← Nat.succ_mul, Nat.mul_div_cancel _ hp] at hk'
          exact hnd k' (by omega) hk'q
    · exact hkeep (.inr hf)

/-- **Pages that finish in order**: a byte stays live to the end of the run. -/
theorem runMarks_live {sched : List Nat} {first q a : Nat} (hp : 0 < pageSize)
    (hq : a / pageSize = q)
    (hord : ∀ k k', first ≤ k → k < k' → k' ≤ q → FinishesBefore sched k k') :
    ∀ (s1 s2 : List Nat) {m m' : Marks}, sched = s1 ++ s2 →
      runMarks pageSize s2 m = some m' → (∀ k ∈ sched, k ∈ m'.done) →
      Live pageSize first q a m → Live pageSize first q a m'
  | _, [], _, _, _, hr, _, h => by
    cases hr
    exact h
  | s1, k :: s2, m, m', hs, hr, hdone, h => by
    obtain ⟨m1, h1, h2⟩ := runMarks_cons hr
    refine runMarks_live hp hq hord (s1 ++ [k]) s2 (by simpa using hs) h2 hdone ?_
    obtain ⟨hk, ⟨he, rfl⟩ | ⟨fi, s', he, rfl⟩⟩ := markRound_cases h1
    · rcases h with h | ⟨f, hf, hc, hfirst, hnd⟩
      · exact .inl h
      refine .inr ⟨f, hf, hc, hfirst, fun k' hk' hk'q hm => ?_⟩
      rcases List.mem_cons.1 hm with rfl | hm
      · -- page `k'` ends while the entry starts in page `c` before it: `c` would end later
        have hnone := extractNode_none (Option.map_eq_none_iff.1 he) f hf
        generalize hcp : f.paddr / pageSize = c at hk' hfirst hnd
        have hlt : c ≠ k' := by
          rintro rfl
          refine hnone ⟨hcp ▸ Nat.div_mul_le_self _ _, ?_⟩
          have := Nat.lt_div_mul_add hp (a := f.paddr)
          rwa [hcp] at this
        have hb : FinishesBefore sched c k' := hord c k' hfirst (by omega) hk'q
        have hcs : c ∈ sched := by
          obtain ⟨t1, t2, rfl, ht, -⟩ := hb
          exact List.mem_append_left _ ht
        have hc2 : c ∈ s2 := by
          rcases runMarks_done h2 (hdone c hcs) with hcd | hcd
          · rcases List.mem_cons.1 hcd with hcd | hcd
            · exact absurd hcd hlt
            · exact absurd hcd (hnd c (Nat.le_refl _) (by omega))
          · exact hcd
        rw [hs] at hb
        exact runMarks_not_mem h2 List.mem_cons_self (hb.not_last hc2)
      · exact hnd k' hk' hk'q hm
    · exact h.extract hp hq he

end

/-! ## The result -/

section
variable (vaddrToPaddr : Nat → Nat) (reqs : List Request) (pageSize : Nat)

/-- Of the bytes of the pages, the requested ones are overwritten with a request's fill whatever the
page held, and the others are kept. -/
def Erases (pages : List Nat) (final : (Nat → List UInt8) → Nat → List UInt8) : Prop :=
  ∀ q ∈ pages, ∀ o < pageSize,
    (Requested vaddrToPaddr reqs (q * pageSize + o) →
      ∃ r ∈ reqs, ∀ mem, byteAt (final mem q) o = r.fill) ∧
    (¬ Requested vaddrToPaddr reqs (q * pageSize + o) →
      ∀ mem, byteAt (final mem q) o = byteAt (mem q) o)

/-- Each requested byte of a page has a request that covers it and whose pages up to that one are
passed and finish in increasing order. -/
def EachInOrder (sched : List Nat) : Prop :=
  ∀ q ∈ sched, ∀ o < pageSize, Requested vaddrToPaddr reqs (q * pageSize + o) →
    ∃ r ∈ reqs, r.Covers vaddrToPaddr (q * pageSize + o) ∧
      ∀ k k', r.paddr vaddrToPaddr / pageSize ≤ k → k < k' → k' ≤ q → FinishesBefore sched k k'

/-- The loop of every page of the schedule has ended. -/
def Complete (sched : List Nat) (s : Filter) : Prop :=
  ∀ mem, ∃ t, runThreads pageSize sched { filter := s, buf := mem } = some t ∧
    ∀ q ∈ sched, q ∈ t.done

/-- The page buffers at the end of a schedule. -/
def threadPages (sched : List Nat) (s : Filter) (mem : Nat → List UInt8) : Nat → List UInt8 :=
  ((runThreads pageSize sched { filter := s, buf := mem }).map (·.buf)).getD mem

variable {vaddrToPaddr reqs pageSize}

theorem Inv.logged_page {sched : List Nat} {m : Marks}
    (h : Inv vaddrToPaddr reqs pageSize sched m) {e : Nat × FilterInfo} (he : e ∈ m.log) :
    e.1 * pageSize ≤ e.2.paddr := by
  rw [← (h.logged e he).1]
  exact Nat.div_mul_le_self _ _

theorem erases_of_inOrder (hp : 0 < pageSize) {sched pages : List Nat} {m : Marks}
    (hpages : ∀ q ∈ pages, q ∈ sched)
    (hr : runMarks pageSize sched { filter := gatherFilterInfo vaddrToPaddr reqs } = some m)
    (hd : ∀ q ∈ sched, q ∈ m.done) (ho : EachInOrder vaddrToPaddr reqs pageSize sched) :
    Erases vaddrToPaddr reqs pageSize pages (eraseAll pageSize m.log) := by
  have hI : Inv vaddrToPaddr reqs pageSize sched m := Inv.run hp sched (Inv.init reqs) hr
  intro q hq o hop
  have hpage : (q * pageSize + o) / pageSize = q := page_eq (by omega) (by omega)
  refine ⟨fun hreq => ?_, fun hreq mem => ?_⟩
  · obtain ⟨r, hrm, hc, hord⟩ := ho q (hpages q hq) o hop hreq
    obtain ⟨f, hf, hfp, hfc⟩ := (gathered reqs).covers r hrm _ hc
    have h0 : Live pageSize (r.paddr vaddrToPaddr / pageSize) q (q * pageSize + o)
        { filter := gatherFilterInfo vaddrToPaddr reqs } :=
      .inr ⟨f, hf, hfc, hfp ▸ Nat.le_refl _, fun k _ _ => List.not_mem_nil⟩
    have hL := runMarks_live hp hpage hord [] sched rfl hr hd h0
    have hcov : ∃ e ∈ m.log, e.1 = q ∧ e.2.Covers (q * pageSize + o) := by
      rcases hL with h | ⟨g, -, hgc, -, hnd⟩
      · exact h
      · have hle : g.paddr / pageSize ≤ q := hpage ▸ Nat.div_le_div_right hgc.1
        exact absurd (hd q (hpages q hq)) (hnd q hle (Nat.le_refl _))
    obtain ⟨e, he, hb⟩ := eraseAll_covered m.log (fun e => hI.logged_page) hcov
    obtain ⟨r', hr', hfill⟩ := (hI.logged e he).2.fill
    exact ⟨r', hr', fun mem => (hb mem).trans hfill.symm⟩
  · refine eraseAll_untouched mem m.log (fun e => hI.logged_page) fun e he _ hc => hreq ?_
    obtain ⟨r, hrm, h1, h2, -⟩ := (hI.logged e he).2.request
    unfold FilterInfo.Covers at hc
    exact ⟨r, hrm, by unfold Request.Covers; omega⟩

/-- What is overwritten was reached page by page. -/
theorem startsBefore_of_erases (hp : 0 < pageSize) {sched pages : List Nat} {m : Marks}
    (hr : runMarks pageSize sched { filter := gatherFilterInfo vaddrToPaddr reqs } = some m)
    (hE : Erases vaddrToPaddr reqs pageSize pages (eraseAll pageSize m.log))
    {q o : Nat} (hq : q ∈ pages) (hop : o < pageSize)
    (hreq : Requested vaddrToPaddr reqs (q * pageSize + o)) :
    ∃ r ∈ reqs, r.Covers vaddrToPaddr (q * pageSize + o) ∧
      ∀ k k', r.paddr vaddrToPaddr / pageSize ≤ k → k < k' → k' ≤ q →
        StartsBefore sched k k' := by
  have hI : Inv vaddrToPaddr reqs pageSize sched m := Inv.run hp sched (Inv.init reqs) hr
  obtain ⟨r, -, hfill⟩ := (hE q hq o hop).1 hreq
  by_cases hcov : ∃ e ∈ m.log, e.1 = q ∧ e.2.Covers (q * pageSize + o)
  · obtain ⟨e, he, rfl, hc⟩ := hcov
    obtain ⟨r', hr', h1, h2, hcame⟩ := (hI.logged e he).2.request
    unfold FilterInfo.Covers at hc
    exact ⟨r', hr', by unfold Request.Covers; omega,
      fun k k' hk hlt hle => hcame.order k k' hk hlt (by omega)⟩
  · -- an untouched byte keeps a value that is not the fill
    have hkeep := eraseAll_untouched (fun _ => List.replicate pageSize (r.fill + 1)) m.log
      (fun e => hI.logged_page) fun e he heq hc => hcov ⟨e, he, heq, hc⟩
    rw [hfill, byteAt, List.getD_eq_getElem?_getD, List.getElem?_replicate, if_pos hop] at hkeep
    simp at hkeep

end

end Erase
