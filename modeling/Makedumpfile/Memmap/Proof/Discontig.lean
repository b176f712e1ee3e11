import Mathlib.Data.List.Perm.Subperm
import Mathlib.Data.Option.Basic
import Makedumpfile.Memmap.Discontig

/-!
# The mem_map table covers the memory

The table is complete, sorted and without a gap (`Covers`), its entries are those of the nodes and of
the gaps between them. Three things can go wrong: a block of `node_memblk` whose node is not online
leaves an entry before the sort that nothing writes; a block that begins behind `max_mapnr`, or whose
end wraps around, ends before it begins; and for Xen the entries are counted up to `max_mapnr` and
written up to `dom0_mapnr`. `table_ok_iff` says that these are all.
-/

namespace Memmap

open Lib

/-- The entries follow one another from `s` to `t`. -/
def Covers : Nat → Nat → List MemMapData → Prop
  | s, t, [] => s = t
  | s, t, e :: l => e.pfnStart = s ∧ s ≤ e.pfnEnd ∧ Covers e.pfnEnd t l

theorem covers_append {s t : Nat} {l m : List MemMapData} :
    Covers s t (l ++ m) ↔ ∃ u, Covers s u l ∧ Covers u t m := by
  induction l generalizing s with
  | nil => simp [Covers]
  | cons e l ih =>
    simp only [List.cons_append, Covers, ih]
    constructor
    · rintro ⟨h1, h2, u, h3, h4⟩
      exact ⟨u, ⟨h1, h2, h3⟩, h4⟩
    · rintro ⟨u, ⟨h1, h2, h3⟩, h4⟩
      exact ⟨h1, h2, u, h3, h4⟩

theorem Covers.le {s t : Nat} : ∀ {l : List MemMapData}, Covers s t l → s ≤ t
  | [], h => Nat.le_of_eq h
  | _ :: _, h => Nat.le_trans h.2.1 h.2.2.le

theorem Covers.mem {s t : Nat} {l : List MemMapData} (h : Covers s t l) {e : MemMapData}
    (he : e ∈ l) : s ≤ e.pfnStart ∧ e.pfnStart ≤ e.pfnEnd ∧ e.pfnEnd ≤ t := by
  induction l generalizing s with
  | nil => cases he
  | cons a l ih =>
    have hle := h.2.1
    rcases List.mem_cons.1 he with rfl | he
    · rw [h.1]
      exact ⟨Nat.le_refl _, hle, h.2.2.le⟩
    · obtain ⟨h1, h2, h3⟩ := ih h.2.2 he
      exact ⟨Nat.le_trans hle h1, h2, h3⟩

/-- Two coverings with the same beginning and the same entries end together. -/
theorem Covers.end_eq {s t u : Nat} {l : List MemMapData} (h : Covers s t l) (h' : Covers s u l) :
    t = u := by
  induction l generalizing s with
  | nil => exact h.symm.trans h'
  | cons a l ih => exact ih h.2.2 h'.2.2

/-! ## Gaps -/

/-- No entry reaches into the next one. -/
abbrev Apart (l : List MemMapData) : Prop := l.Pairwise fun a b => a.pfnEnd ≤ b.pfnStart

theorem apart_of_countGaps : ∀ {l : List MemMapData} {g : Nat}, countGaps l = some g →
    (l.Pairwise fun a b => a.pfnStart ≤ b.pfnStart) → Apart l
  | [], _, _, _ => .nil
  | [_], _, _, _ => List.pairwise_singleton _ _
  | a :: b :: l, g, hg, hs => by
    rw [countGaps] at hg
    split at hg
    case isTrue => cases hg
    case isFalse hle =>
      obtain ⟨g', hg', -⟩ := Option.map_eq_some_iff.1 hg
      rw [List.pairwise_cons] at hs
      refine List.pairwise_cons.2 ⟨fun x hx => ?_, apart_of_countGaps hg' hs.2⟩
      rcases List.mem_cons.1 hx with rfl | hx
      · omega
      · have := (List.pairwise_cons.1 hs.2).1 x hx
        omega

/-- The places are used one after the other, as many as were counted. -/
theorem fillEntries_places : ∀ {l : List MemMapData} {g : Nat} (k : Nat), countGaps l = some g →
    (fillEntries k l).1.map Prod.fst = List.range' k (l.length + g) ∧
    (fillEntries k l).2 = k + (l.length + g)
  | [], g, k, hg => by
    cases hg
    exact ⟨rfl, rfl⟩
  | [a], g, k, hg => by
    cases hg
    exact ⟨rfl, rfl⟩
  | a :: b :: l, g, k, hg => by
    rw [countGaps] at hg
    split at hg
    case isTrue => cases hg
    case isFalse =>
      obtain ⟨g', hg', rfl⟩ := Option.map_eq_some_iff.1 hg
      rw [fillEntries]
      by_cases heq : a.pfnEnd = b.pfnStart
      · obtain ⟨h1, h2⟩ := fillEntries_places (k + 1) hg'
        rw [if_neg (by simpa using heq), if_pos heq]
        refine ⟨?_, ?_⟩
        · rw [List.map_cons, h1, @List.length_cons _ a (b :: l), Nat.add_right_comm,
            List.range'_succ]
        · rw [h2, @List.length_cons _ a (b :: l)]
          omega
      · obtain ⟨h1, h2⟩ := fillEntries_places (k + 2) hg'
        rw [if_pos heq, if_neg heq]
        refine ⟨?_, ?_⟩
        · rw [List.map_cons, List.map_cons, h1, @List.length_cons _ a (b :: l),
            show (b :: l).length + 1 + (g' + 1) = (b :: l).length + g' + 1 + 1 by omega,
            List.range'_succ, List.range'_succ]
        · rw [h2, @List.length_cons _ a (b :: l)]
          omega

/-- The entries and the gaps between them have no gap. -/
theorem fillEntries_covers : ∀ {l : List MemMapData} {a : MemMapData} {g : Nat} (k : Nat),
    countGaps (a :: l) = some g → (∀ e ∈ a :: l, e.pfnStart ≤ e.pfnEnd) →
    Covers a.pfnStart ((a :: l).getLast (List.cons_ne_nil a l)).pfnEnd
      ((fillEntries k (a :: l)).1.map Prod.snd)
  | [], a, g, k, _, h => ⟨rfl, h a List.mem_cons_self, rfl⟩
  | b :: l, a, g, k, hg, h => by
    rw [countGaps] at hg
    split at hg
    case isTrue => cases hg
    case isFalse hle =>
      obtain ⟨g', hg', -⟩ := Option.map_eq_some_iff.1 hg
      have ih : ∀ k, Covers b.pfnStart _ ((fillEntries k (b :: l)).1.map Prod.snd) :=
        fun k => fillEntries_covers k hg' fun e he => h e (List.mem_cons_of_mem _ he)
      have ha := h a List.mem_cons_self
      rw [List.getLast_cons (List.cons_ne_nil b l), fillEntries]
      split
      case isTrue =>
        exact ⟨rfl, ha, rfl, Nat.le_of_not_lt hle, ih (k + 2)⟩
      case isFalse heq =>
        refine ⟨rfl, ha, ?_⟩
        rw [Decidable.not_not.1 heq]
        exact ih (k + 1)

theorem mem_fillEntries : ∀ {l : List MemMapData} (k : Nat) {x : MemMapData}, x ∈ l →
    x ∈ (fillEntries k l).1.map Prod.snd
  | [a], k, x, hx => by simpa [fillEntries] using hx
  | a :: b :: l, k, x, hx => by
    rw [fillEntries]
    rcases List.mem_cons.1 hx with rfl | hx
    · split <;> simp
    · split
      · exact List.mem_cons_of_mem _ (List.mem_cons_of_mem _ (mem_fillEntries (k + 2) hx))
      · exact List.mem_cons_of_mem _ (mem_fillEntries (k + 1) hx)

/-- An entry that is written is one of the list, or a gap that no entry of the list reaches into. -/
theorem fillEntries_entry : ∀ {l : List MemMapData} {g : Nat} (k : Nat) {e : MemMapData},
    countGaps l = some g → Apart l → (∀ x ∈ l, x.pfnStart ≤ x.pfnEnd) →
    e ∈ (fillEntries k l).1.map Prod.snd →
    e ∈ l ∨ e.memMap = notMemmapAddr ∧ ∀ x ∈ l, x.pfnEnd ≤ e.pfnStart ∨ e.pfnEnd ≤ x.pfnStart
  | [], g, k, e, _, _, _, he => by cases he
  | [a], g, k, e, _, _, _, he => .inl (by simpa [fillEntries] using he)
  | a :: b :: l, g, k, e, hg, hap, h, he => by
    rw [countGaps] at hg
    split at hg
    case isTrue => cases hg
    obtain ⟨g', hg', -⟩ := Option.map_eq_some_iff.1 hg
    have hcons := List.pairwise_cons.1 hap
    have ha := h a List.mem_cons_self
    have hb := h b (List.mem_cons_of_mem _ List.mem_cons_self)
    have hab := hcons.1 b List.mem_cons_self
    -- a gap behind `b` begins behind `a`
    have hrest : ∀ k, e ∈ (fillEntries k (b :: l)).1.map Prod.snd → e ∈ a :: b :: l ∨
        e.memMap = notMemmapAddr ∧ ∀ x ∈ a :: b :: l, x.pfnEnd ≤ e.pfnStart ∨
          e.pfnEnd ≤ x.pfnStart := by
      intro k' he'
      have htail : ∀ x ∈ b :: l, x.pfnStart ≤ x.pfnEnd := fun x hx => h x (List.mem_cons_of_mem _ hx)
      rcases fillEntries_entry k' hg' hcons.2 htail he' with hmem | ⟨hgap, hout⟩
      · exact .inl (List.mem_cons_of_mem _ hmem)
      · refine .inr ⟨hgap, fun x hx => ?_⟩
        rcases List.mem_cons.1 hx with rfl | hx
        · exact .inl (Nat.le_trans hab ((fillEntries_covers k' hg' htail).mem he').1)
        · exact hout x hx
    rw [fillEntries] at he
    split at he
    case isTrue =>
      rcases List.mem_cons.1 he with rfl | he
      · exact .inl List.mem_cons_self
      · rcases List.mem_cons.1 he with rfl | he
        · refine .inr ⟨rfl, fun x hx => ?_⟩
          rcases List.mem_cons.1 hx with rfl | hx
          · exact .inl (Nat.le_refl _)
          · right
            rcases List.mem_cons.1 hx with rfl | hx
            · exact Nat.le_refl _
            · have := (List.pairwise_cons.1 hcons.2).1 x hx
              exact Nat.le_trans hb this
        · exact hrest _ he
    case isFalse =>
      rcases List.mem_cons.1 he with rfl | he
      · exact .inl List.mem_cons_self
      · exact hrest _ he

/-! ## The table of the sorted entries -/

variable {d : Discontig} {a : MemMapData} {l : List MemMapData} {t : MemMapTable}

/-- The entries of the gaps before the first entry and behind the last. -/
def firstGap (a : MemMapData) : List MemMapData :=
  if a.pfnStart ≠ 0 then [gapEntry 0 a.pfnStart] else []

def lastGap (pfnEnd tableEnd : Nat) : List MemMapData :=
  if pfnEnd < tableEnd then [gapEntry pfnEnd tableEnd] else []

/-- **What is counted and what is written.** -/
theorem fillTable_cases (h : fillTable d (a :: l) = some t) :
    ∃ g k, countGaps (a :: l) = some g ∧
      t.numMemMap = (firstGap a).length + ((a :: l).length + g) +
        (lastGap ((a :: l).getLast (List.cons_ne_nil a l)).pfnEnd d.maxMapnr).length ∧
      t.writes.map Prod.fst = List.range ((firstGap a).length + ((a :: l).length + g) +
        (lastGap ((a :: l).getLast (List.cons_ne_nil a l)).pfnEnd (tableEnd d)).length) ∧
      t.writes.map Prod.snd = firstGap a ++ ((fillEntries k (a :: l)).1.map Prod.snd ++
        lastGap ((a :: l).getLast (List.cons_ne_nil a l)).pfnEnd (tableEnd d)) := by
  unfold fillTable at h
  obtain ⟨g, hg, h⟩ := Option.bind_eq_some_iff.1 h
  cases h
  generalize (a :: l).getLast (List.cons_ne_nil a l) = last
  have hfirst : (if a.pfnStart ≠ 0 then [(0, gapEntry 0 a.pfnStart)] else []).map Prod.snd =
      firstGap a := by
    unfold firstGap
    split <;> rfl
  have hlen : (if a.pfnStart ≠ 0 then [(0, gapEntry 0 a.pfnStart)] else []).length =
      (firstGap a).length := by
    rw [← hfirst, List.length_map]
  refine ⟨g, (firstGap a).length, hg, ?_, ?_, ?_⟩
  · unfold firstGap lastGap
    dsimp only
    split <;> split <;> simp only [List.length_cons, List.length_nil] <;> omega
  · dsimp only
    rw [hlen]
    obtain ⟨h1, h2⟩ := fillEntries_places (firstGap a).length hg
    rw [List.map_append, List.map_append, h1, h2]
    have hzero : (if a.pfnStart ≠ 0 then [(0, gapEntry 0 a.pfnStart)] else []).map Prod.fst =
        List.range' 0 (firstGap a).length := by
      unfold firstGap
      split <;> rfl
    generalize (a :: l).length + g = n
    rw [hzero, List.range_eq_range', ← List.range'_append_1, ← List.range'_append_1, Nat.zero_add,
      Nat.zero_add]
    congr 1
    unfold lastGap
    split <;> rfl
  · dsimp only
    rw [hlen, List.map_append, List.map_append, hfirst, List.append_assoc]
    congr 2
    unfold lastGap
    split <;> rfl

theorem countGaps_fillTable (h : fillTable d (a :: l) = some t) :
    ∃ g, countGaps (a :: l) = some g := by
  obtain ⟨g, -, hg, -⟩ := fillTable_cases h
  exact ⟨g, hg⟩

theorem mem_fillTable (h : fillTable d l = some t) {x : MemMapData} (hx : x ∈ l) :
    x ∈ t.writes.map Prod.snd := by
  cases l with
  | nil => cases hx
  | cons a l =>
    obtain ⟨g, k, -, -, -, hw⟩ := fillTable_cases h
    rw [hw]
    exact List.mem_append_right _ (List.mem_append_left _ (mem_fillEntries k hx))

/-- The last entry ends last. -/
theorem Apart.le_getLast : ∀ {l : List MemMapData} (hl : l ≠ []), Apart l →
    (∀ x ∈ l, x.pfnStart ≤ x.pfnEnd) → ∀ x ∈ l, x.pfnEnd ≤ (l.getLast hl).pfnEnd
  | [a], _, _, _, x, hx => by
    cases List.mem_singleton.1 hx
    exact Nat.le_refl _
  | a :: b :: l, _, hap, h, x, hx => by
    rw [List.getLast_cons (List.cons_ne_nil b l)]
    have ih := Apart.le_getLast (List.cons_ne_nil b l) hap.tail
      fun x hx => h x (List.mem_cons_of_mem _ hx)
    rcases List.mem_cons.1 hx with rfl | hx
    · have hb := h b (List.mem_cons_of_mem _ List.mem_cons_self)
      have hab := (List.pairwise_cons.1 hap).1 b List.mem_cons_self
      exact Nat.le_trans (Nat.le_trans hab hb) (ih b List.mem_cons_self)
    · exact ih x hx

/-- **The table** is complete and covers the memory if the last entry has the same place below
`max_mapnr` as below the end. -/
theorem fillTable_ok (h : fillTable d (a :: l) = some t)
    (hs : (a :: l).Pairwise fun a b => a.pfnStart ≤ b.pfnStart)
    (hr : ∀ x ∈ a :: l, x.pfnStart ≤ x.pfnEnd)
    (hend : ((a :: l).getLast (List.cons_ne_nil a l)).pfnEnd < d.maxMapnr ∧
        ((a :: l).getLast (List.cons_ne_nil a l)).pfnEnd < tableEnd d ∨
      ((a :: l).getLast (List.cons_ne_nil a l)).pfnEnd = d.maxMapnr ∧
        ((a :: l).getLast (List.cons_ne_nil a l)).pfnEnd = tableEnd d) :
    t.writes.map Prod.fst = List.range t.numMemMap ∧
    Covers 0 (tableEnd d) (t.writes.map Prod.snd) ∧
    ∀ e ∈ t.writes.map Prod.snd, e ∈ a :: l ∨ e.memMap = notMemmapAddr ∧
      ∀ x ∈ a :: l, x.pfnEnd ≤ e.pfnStart ∨ e.pfnEnd ≤ x.pfnStart := by
  obtain ⟨g, k, hg, hn, hp, hw⟩ := fillTable_cases h
  have hap := apart_of_countGaps hg hs
  have hlast := hap.le_getLast (List.cons_ne_nil a l) hr
  have hmid := fillEntries_covers k hg hr
  rw [hn, hp, hw]
  generalize (a :: l).getLast (List.cons_ne_nil a l) = last at *
  refine ⟨?_, ?_, fun e he => ?_⟩
  · congr 2
    unfold lastGap
    rcases hend with ⟨h1, h2⟩ | ⟨h1, h2⟩
    · rw [if_pos h1, if_pos h2]
      rfl
    · rw [if_neg (by omega), if_neg (by omega)]
  · refine covers_append.2 ⟨a.pfnStart, ?_, covers_append.2 ⟨last.pfnEnd, hmid, ?_⟩⟩
    · unfold firstGap
      split
      case isTrue => exact ⟨rfl, Nat.zero_le _, rfl⟩
      case isFalse hzero => exact (Decidable.not_not.1 hzero).symm
    · unfold lastGap
      split
      · exact ⟨rfl, Nat.le_of_lt ‹_›, rfl⟩
      · show last.pfnEnd = tableEnd d
        omega
  · rcases List.mem_append.1 he with he | he
    · -- the gap before the first entry
      unfold firstGap at he
      split at he
      · cases List.mem_singleton.1 he
        refine .inr ⟨rfl, fun x hx => .inr ?_⟩
        rcases List.mem_cons.1 hx with rfl | hx
        · exact Nat.le_refl _
        · exact (List.pairwise_cons.1 hs).1 x hx
      · cases he
    · rcases List.mem_append.1 he with he | he
      · exact fillEntries_entry k hg hap hr he
      · unfold lastGap at he
        split at he
        · cases List.mem_singleton.1 he
          exact .inr ⟨rfl, fun x hx => .inl (hlast x hx)⟩
        · cases he

/-- In a complete table that covers the memory, the last entry has the same place below `max_mapnr` as
below the end. -/
theorem end_of_fillTable (h : fillTable d (a :: l) = some t)
    (hr : ∀ x ∈ a :: l, x.pfnStart ≤ x.pfnEnd)
    (hmax : ((a :: l).getLast (List.cons_ne_nil a l)).pfnEnd ≤ d.maxMapnr)
    (hplaces : t.writes.map Prod.fst = List.range t.numMemMap)
    (hcov : Covers 0 (tableEnd d) (t.writes.map Prod.snd)) :
    ((a :: l).getLast (List.cons_ne_nil a l)).pfnEnd < d.maxMapnr ∧
        ((a :: l).getLast (List.cons_ne_nil a l)).pfnEnd < tableEnd d ∨
      ((a :: l).getLast (List.cons_ne_nil a l)).pfnEnd = d.maxMapnr ∧
        ((a :: l).getLast (List.cons_ne_nil a l)).pfnEnd = tableEnd d := by
  obtain ⟨g, k, hg, hn, hp, hw⟩ := fillTable_cases h
  have hmid := fillEntries_covers k hg hr
  rw [hp, hn] at hplaces
  rw [hw] at hcov
  generalize (a :: l).getLast (List.cons_ne_nil a l) = last at *
  have hlen := congrArg List.length hplaces
  rw [List.length_range, List.length_range] at hlen
  unfold lastGap at hlen hcov
  by_cases hlt : last.pfnEnd < tableEnd d
  · rw [if_pos hlt] at hlen
    split at hlen
    · exact .inl ⟨‹_›, hlt⟩
    · simp only [List.length_cons, List.length_nil] at hlen
      omega
  · rw [if_neg hlt] at hlen hcov
    split at hlen
    · simp only [List.length_cons, List.length_nil] at hlen
      omega
    · obtain ⟨u, hfirst, hrest⟩ := covers_append.1 hcov
      rw [List.append_nil] at hrest
      have hu : u = a.pfnStart := by
        unfold firstGap at hfirst
        split at hfirst
        case isTrue => exact hfirst.2.2.symm
        case isFalse hzero => exact (Eq.symm hfirst).trans (Decidable.not_not.1 hzero).symm
      rw [hu] at hrest
      have := hmid.end_eq hrest
      omega

/-! ## The entries before the sort -/

variable (d) in
/-- The page frames of the nodes, or of their memory blocks. -/
def nodeBlocks : List MemMapData :=
  d.nodes.flatMap fun n =>
    if separateMm d then ((memblks d).filter fun b => b.nid = n.nid).map (memblkBlock d n)
    else [nodeBlock d n]

theorem eq_map_of_mapM {α β : Type} {f : α → Option β} {g : α → β}
    (h : ∀ a b, f a = some b → b = g a) : ∀ {l : List α} {r : List β}, l.mapM f = some r →
    r = l.map g
  | [], r, hr => by
    rw [List.mapM_nil] at hr
    cases hr
    rfl
  | a :: l, r, hr => by
    rw [List.mapM_cons] at hr
    obtain ⟨b, hb, hr⟩ := Option.bind_eq_some_iff.1 hr
    obtain ⟨r', hr', hr⟩ := Option.bind_eq_some_iff.1 hr
    cases hr
    rw [h a b hb, eq_map_of_mapM h hr', List.map_cons]

theorem nodeEntries_eq {n : Node} {r : List MemMapData} (h : nodeEntries d n = some r) :
    r = (if separateMm d then ((memblks d).filter fun b => b.nid = n.nid).map (memblkBlock d n)
      else [nodeBlock d n]).map (clamp d) := by
  unfold nodeEntries at h
  cases hs : separateMm d with
  | true =>
    rw [if_pos hs] at h
    rw [if_pos rfl, List.map_map]
    refine eq_map_of_mapM (fun b e hb => ?_) h
    split at hb
    · cases hb
    · exact (Option.some.inj hb).symm
  | false =>
    rw [hs] at h
    exact (Option.some.inj h).symm

/-- The entries after those that were written. -/
def junkEntries (d : Discontig) (junk : Nat → MemMapData) : List MemMapData :=
  (List.range' (nodeBlocks d).length (getNumMmDiscontigmem d - (nodeBlocks d).length)).map junk

/-- A call that succeeds is about the blocks and what is left of `junk`. -/
theorem getMm_eq {junk0 : Nat → MemMapData} {t0 : MemMapTable}
    (h : getMmDiscontigmem d junk0 = some t0) :
    d.nodes ≠ [] ∧ d.nodes.length ≤ getNumMmDiscontigmem d ∧
      ∀ junk, getMmDiscontigmem d junk =
        fillTable d (sortMemMap ((nodeBlocks d).map (clamp d) ++ junkEntries d junk)) := by
  unfold getMmDiscontigmem at h
  obtain ⟨u, hne, h⟩ := Option.bind_eq_some_iff.1 h
  obtain ⟨u', hle, h⟩ := Option.bind_eq_some_iff.1 h
  obtain ⟨entries, he, -⟩ := Option.bind_eq_some_iff.1 h
  have hne := (Option.guard_eq_some' _).1 hne
  have hle := (Option.guard_eq_some' _).1 hle
  have hflat : entries.flatten = (nodeBlocks d).map (clamp d) := by
    rw [eq_map_of_mapM (fun n r => nodeEntries_eq) he, nodeBlocks, List.flatMap_def, List.map_flatten,
      List.map_map]
    rfl
  refine ⟨hne, hle, fun junk => ?_⟩
  unfold getMmDiscontigmem junkEntries
  rw [(Option.guard_eq_some' ()).2 hne, (Option.guard_eq_some' ()).2 hle, he]
  show fillTable d (sortMemMap (entries.flatten ++ (List.range' entries.flatten.length
    (getNumMmDiscontigmem d - entries.flatten.length)).map junk)) = _
  rw [hflat, List.length_map]

theorem countP_or_add {α : Type} {p q : α → Bool} {l : List α}
    (h : ∀ a ∈ l, ¬ (p a = true ∧ q a = true)) :
    l.countP p + l.countP q = l.countP fun a => p a || q a := by
  induction l with
  | nil => rfl
  | cons a l ih =>
    have ih := ih fun a ha => h a (List.mem_cons_of_mem _ ha)
    have ha := h a List.mem_cons_self
    simp only [List.countP_cons]
    cases hp : p a with
    | false => cases hq : q a <;> simp <;> omega
    | true =>
      cases hq : q a with
      | false =>
        simp
        omega
      | true => exact absurd ⟨hp, hq⟩ ha

/-- A memory block belongs to one online node at most. -/
theorem length_flatMap_memblks {f : Node → NodeMemblk → MemMapData} (blks : List NodeMemblk) :
    ∀ {nodes : List Node}, (nodes.Pairwise fun a b => a.nid < b.nid) →
    (nodes.flatMap fun n => (blks.filter fun b => b.nid = n.nid).map (f n)).length =
      blks.countP fun b => nodes.any fun n => b.nid = n.nid
  | [], _ => by simp
  | n :: ns, h => by
    have hn := List.pairwise_cons.1 h
    rw [List.flatMap_cons, List.length_append, length_flatMap_memblks blks hn.2, List.length_map,
      ← List.countP_eq_length_filter, countP_or_add]
    · rfl
    · rintro b - ⟨h1, h2⟩
      obtain ⟨n', hn', heq⟩ := List.any_eq_true.1 h2
      have := hn.1 n' hn'
      rw [decide_eq_true_eq] at h1 heq
      omega

variable (d) in
/-- Every memory block belongs to an online node, if the blocks are used. -/
def Online : Prop := separateMm d = true → ∀ b ∈ memblks d, ∃ n ∈ d.nodes, b.nid = n.nid

theorem length_nodeBlocks (hle : d.nodes.length ≤ getNumMmDiscontigmem d) :
    (nodeBlocks d).length ≤ getNumMmDiscontigmem d ∧
    ((nodeBlocks d).length = getNumMmDiscontigmem d ↔ Online d) := by
  unfold Online nodeBlocks
  cases hs : separateMm d with
  | false =>
    have hnum : getNumMmDiscontigmem d ≤ d.nodes.length := by simpa [separateMm] using hs
    have hlen : (d.nodes.flatMap fun n => [nodeBlock d n]).length = d.nodes.length := by simp
    simp only [Bool.false_eq_true, if_false, false_implies, iff_true]
    rw [hlen]
    omega
  | true =>
    have hnum : getNumMmDiscontigmem d = (memblks d).length := by
      have hlt : d.nodes.length < getNumMmDiscontigmem d := by simpa [separateMm] using hs
      unfold getNumMmDiscontigmem at hlt ⊢
      split at hlt
      · omega
      · rw [if_neg ‹_›]
    simp only [if_true, forall_const]
    rw [length_flatMap_memblks _ d.ordered, hnum]
    refine ⟨List.countP_le_length, List.countP_eq_length.trans ?_⟩
    simp

/-! ## The table -/

@[simp] theorem clamp_pfnStart (d : Discontig) (e : MemMapData) :
    (clamp d e).pfnStart = e.pfnStart := by
  unfold clamp
  split <;> rfl

@[simp] theorem clamp_memMap (d : Discontig) (e : MemMapData) : (clamp d e).memMap = e.memMap := by
  unfold clamp
  split <;> rfl

@[simp] theorem clamp_pfnEnd (d : Discontig) (e : MemMapData) :
    (clamp d e).pfnEnd = min e.pfnEnd d.maxMapnr := by
  unfold clamp
  split
  case isTrue h => exact (Nat.min_eq_right (Nat.le_of_lt h)).symm
  case isFalse h => exact (Nat.min_eq_left (Nat.le_of_not_lt h)).symm

variable (d) in
/-- The entry is that of a block, cut at `max_mapnr`. -/
def IsBlock (e : MemMapData) : Prop := ∃ b ∈ nodeBlocks d, e = clamp d b

variable (d) in
/-- The entry is marked as a gap, and none of its page frames belongs to a block. -/
def IsGap (e : MemMapData) : Prop :=
  e.memMap = notMemmapAddr ∧ ∀ pfn, e.pfnStart ≤ pfn → pfn < e.pfnEnd →
    ∀ b ∈ nodeBlocks d, ¬ (b.pfnStart ≤ pfn ∧ pfn < b.pfnEnd)

variable (d) in
/-- **What is asked of the table**: exactly the allocated entries are written, they are sorted and
adjacent and cover the memory, and each is that of a block or of a gap. -/
structure TableOk (t : MemMapTable) : Prop where
  filled : t.writes.map Prod.fst = List.range t.numMemMap
  covers : Covers 0 (tableEnd d) (t.writes.map Prod.snd)
  entry : ∀ e ∈ t.writes.map Prod.snd, IsBlock d e ∨ IsGap d e

variable (d) in
/-- Every memory block belongs to an online node, every block begins up to `max_mapnr` and not behind
its own end, and for Xen the blocks end before `dom0_mapnr` and `max_mapnr` or these are the same. -/
structure BlocksOk : Prop where
  online : Online d
  range : ∀ b ∈ nodeBlocks d, b.pfnStart ≤ b.pfnEnd ∧ b.pfnStart ≤ d.maxMapnr
  xen : d.xen = true → d.dom0Mapnr = d.maxMapnr ∨
    ∀ b ∈ nodeBlocks d, b.pfnEnd < d.dom0Mapnr ∧ b.pfnEnd < d.maxMapnr

theorem sortMemMap_sorted (l : List MemMapData) :
    (sortMemMap l).Pairwise fun a b => a.pfnStart ≤ b.pfnStart :=
  exchangeSort_pairwise (fun a b h => by simpa using Nat.le_of_lt (of_decide_eq_true h))
    (fun a b h => Nat.le_of_not_lt (of_decide_eq_false h)) l

theorem mem_sortMemMap {l : List MemMapData} {x : MemMapData} : x ∈ sortMemMap l ↔ x ∈ l :=
  (exchangeSort_perm l).mem_iff

/-- With every block online the table is made of the blocks alone. -/
theorem getMm_online {junk : Nat → MemMapData} (h : getMmDiscontigmem d junk = some t)
    (ho : Online d) : fillTable d (sortMemMap ((nodeBlocks d).map (clamp d))) = some t := by
  obtain ⟨-, hle, heq⟩ := getMm_eq h
  rw [heq junk, junkEntries, (length_nodeBlocks hle).2.2 ho, Nat.sub_self, List.range'_zero,
    List.map_nil, List.append_nil] at h
  exact h

theorem BlocksOk.tableOk (hb : BlocksOk d) {junk : Nat → MemMapData}
    (h : getMmDiscontigmem d junk = some t) : TableOk d t := by
  have hfill := getMm_online h hb.online
  have hmem : ∀ x ∈ sortMemMap ((nodeBlocks d).map (clamp d)),
      ∃ b ∈ nodeBlocks d, x = clamp d b := by
    intro x hx
    obtain ⟨b, hb, rfl⟩ := List.mem_map.1 (mem_sortMemMap.1 hx)
    exact ⟨b, hb, rfl⟩
  have hsorted := sortMemMap_sorted ((nodeBlocks d).map (clamp d))
  have hall : ∀ b ∈ nodeBlocks d, clamp d b ∈ sortMemMap ((nodeBlocks d).map (clamp d)) :=
    fun b hb => mem_sortMemMap.2 (List.mem_map_of_mem hb)
  generalize sortMemMap ((nodeBlocks d).map (clamp d)) = l at hfill hmem hsorted hall
  cases l with
  | nil => cases hfill
  | cons a l =>
    have hr : ∀ x ∈ a :: l, x.pfnStart ≤ x.pfnEnd := by
      intro x hx
      obtain ⟨b, hbm, rfl⟩ := hmem x hx
      have := hb.range b hbm
      simp only [clamp_pfnStart, clamp_pfnEnd]
      omega
    obtain ⟨b, hbm, hlast⟩ := hmem _ (List.getLast_mem (List.cons_ne_nil a l))
    obtain ⟨h1, h2, h3⟩ := fillTable_ok hfill hsorted hr (by
      rw [hlast, clamp_pfnEnd]
      unfold tableEnd
      split
      case isTrue hx =>
        rcases hb.xen hx with heq | hlt
        · omega
        · have := hlt b hbm
          omega
      case isFalse => omega)
    refine ⟨h1, h2, fun e he => ?_⟩
    rcases h3 e he with hel | ⟨hgap, hout⟩
    · exact .inl (hmem e hel)
    · refine .inr ⟨hgap, fun pfn hp1 hp2 b hbm hpb => ?_⟩
      have hx := hout _ (hall b hbm)
      have hle := (h2.mem he).2.2
      rw [clamp_pfnStart, clamp_pfnEnd] at hx
      unfold tableEnd at hle
      split at hle
      case isTrue hxen =>
        rcases hb.xen hxen with heq | hlt
        · omega
        · have := hlt b hbm
          omega
      case isFalse => omega

/-! ## What goes wrong -/

/-- An entry without its address. -/
def bare (e : MemMapData) : MemMapData := { e with memMap := 0 }

theorem countGaps_bare : ∀ l : List MemMapData, countGaps (l.map bare) = countGaps l
  | [] => rfl
  | [_] => rfl
  | a :: b :: l => by
    have ih := countGaps_bare (b :: l)
    rw [List.map_cons] at ih
    rw [List.map_cons, List.map_cons, countGaps, countGaps, ih]
    rfl

theorem fillTable_isSome {l : List MemMapData} :
    (∃ t, fillTable d l = some t) ↔ l ≠ [] ∧ ∃ g, countGaps l = some g := by
  cases l with
  | nil => simp [fillTable]
  | cons a l =>
    cases hg : countGaps (a :: l) with
    | none => simp [fillTable, hg]
    | some g => simp [fillTable, hg]

/-- The addresses of the entries do not matter to whether there is a table. -/
theorem fillTable_sort_bare {l l' : List MemMapData} (h : l.map bare = l'.map bare)
    (ht : fillTable d (sortMemMap l) = some t) : ∃ t', fillTable d (sortMemMap l') = some t' := by
  have hsort : (sortMemMap l).map bare = (sortMemMap l').map bare := by
    have hmap : ∀ l : List MemMapData, (sortMemMap l).map bare = sortMemMap (l.map bare) := by
      intro l
      unfold sortMemMap
      rw [exchangeSort_map]
      exact fun _ _ => rfl
    rw [hmap, hmap, h]
  obtain ⟨hne, g, hg⟩ := fillTable_isSome.1 ⟨t, ht⟩
  refine fillTable_isSome.2 ⟨fun hnil => ?_, g, ?_⟩
  · rw [hnil, List.map_nil, List.map_eq_nil_iff] at hsort
    exact hne hsort
  · rw [← countGaps_bare, ← hsort, countGaps_bare, hg]

/-- The values fit their types. -/
structure MemMapData.Fits (e : MemMapData) : Prop where
  pfnStart : e.pfnStart < 2 ^ 64
  pfnEnd : e.pfnEnd < 2 ^ 64
  memMap : e.memMap < 2 ^ 64

/-- An address that no block has. -/
theorem exists_fresh (l : List MemMapData) (hl : l.length < 2 ^ 32) :
    ∃ k, 0 < k ∧ k < 2 ^ 64 ∧ ∀ b ∈ l, b.memMap ≠ k := by
  by_contra hno
  push Not at hno
  have hsub : (List.range' 1 (l.length + 1)) ⊆ l.map (·.memMap) := by
    intro k hk
    rw [List.mem_range'_1] at hk
    obtain ⟨b, hb, hbk⟩ := hno k (by omega) (by omega)
    exact List.mem_map.2 ⟨b, hb, hbk⟩
  have hlen := (List.subperm_of_subset List.nodup_range' hsub).length_le
  rw [List.length_range', List.length_map] at hlen
  omega

/-- What `malloc` leaves gets into the table when a memory block has no online node. -/
theorem online_of_tableOk {junk0 : Nat → MemMapData} (h0 : getMmDiscontigmem d junk0 = some t)
    (hfits : ∀ i, (junk0 i).Fits) (hint : getNumMmDiscontigmem d < 2 ^ 31)
    (h : ∀ junk t, (∀ i, (junk i).Fits) → getMmDiscontigmem d junk = some t → TableOk d t) :
    Online d := by
  obtain ⟨-, hle, heq⟩ := getMm_eq h0
  obtain ⟨hlen, honline⟩ := length_nodeBlocks hle
  by_contra hno
  have hlt : (nodeBlocks d).length < getNumMmDiscontigmem d :=
    Nat.lt_of_le_of_ne hlen fun heq => hno (honline.1 heq)
  obtain ⟨k, hk0, hk64, hfresh⟩ := exists_fresh (nodeBlocks d) (by omega)
  -- the same content, but with an address that is neither that of a block nor that of a gap
  let junk := fun i => { junk0 i with memMap := k }
  have hbare : ((nodeBlocks d).map (clamp d) ++ junkEntries d junk0).map bare =
      ((nodeBlocks d).map (clamp d) ++ junkEntries d junk).map bare := by
    unfold junkEntries
    rw [List.map_append, List.map_append]
    congr 1
    rw [List.map_map, List.map_map]
    rfl
  rw [heq junk0] at h0
  obtain ⟨t', ht'⟩ := fillTable_sort_bare hbare h0
  have hok := h junk t' (fun i => ⟨(hfits i).pfnStart, (hfits i).pfnEnd, hk64⟩)
    ((heq junk).trans ht')
  have hmem : junk (nodeBlocks d).length ∈ junkEntries d junk :=
    List.mem_map_of_mem (List.mem_range'_1.2 (by omega))
  have hentry := hok.entry _
    (mem_fillTable ht' (mem_sortMemMap.2 (List.mem_append_right _ hmem)))
  rcases hentry with ⟨b, hb, he⟩ | ⟨hgap, -⟩
  · have hbk : k = (clamp d b).memMap := congrArg MemMapData.memMap he
    rw [clamp_memMap] at hbk
    exact hfresh b hb hbk.symm
  · exact absurd (show k = 0 from hgap) (by omega)

theorem blocksOk_of_tableOk {junk : Nat → MemMapData} (h : getMmDiscontigmem d junk = some t)
    (ho : Online d) (hok : TableOk d t) : BlocksOk d := by
  have hfill := getMm_online h ho
  have hrange : ∀ b ∈ nodeBlocks d, b.pfnStart ≤ b.pfnEnd ∧ b.pfnStart ≤ d.maxMapnr := by
    intro b hb
    have hcov := (hok.covers.mem
      (mem_fillTable hfill (mem_sortMemMap.2 (List.mem_map_of_mem hb)))).2.1
    rw [clamp_pfnStart, clamp_pfnEnd] at hcov
    omega
  refine ⟨ho, hrange, fun hx => ?_⟩
  have hsorted := sortMemMap_sorted ((nodeBlocks d).map (clamp d))
  have hmem : ∀ x ∈ sortMemMap ((nodeBlocks d).map (clamp d)),
      x.pfnStart ≤ x.pfnEnd ∧ x.pfnEnd ≤ d.maxMapnr := by
    intro x hx
    obtain ⟨b, hb, rfl⟩ := List.mem_map.1 (mem_sortMemMap.1 hx)
    have := hrange b hb
    rw [clamp_pfnStart, clamp_pfnEnd]
    omega
  have hall : ∀ b ∈ nodeBlocks d, clamp d b ∈ sortMemMap ((nodeBlocks d).map (clamp d)) :=
    fun b hb => mem_sortMemMap.2 (List.mem_map_of_mem hb)
  generalize sortMemMap ((nodeBlocks d).map (clamp d)) = l at hfill hmem hsorted hall
  cases l with
  | nil => cases hfill
  | cons a l =>
    obtain ⟨g, hg⟩ := countGaps_fillTable hfill
    have hr : ∀ x ∈ a :: l, x.pfnStart ≤ x.pfnEnd := fun x hx => (hmem x hx).1
    have hlast := (apart_of_countGaps hg hsorted).le_getLast (List.cons_ne_nil a l) hr
    have hend := end_of_fillTable hfill hr
      (hmem _ (List.getLast_mem (List.cons_ne_nil a l))).2 hok.filled hok.covers
    unfold tableEnd at hend
    rw [if_pos hx] at hend
    rcases hend with ⟨h1, h2⟩ | ⟨h1, h2⟩
    · refine .inr fun b hb => ?_
      have hle := hlast _ (hall b hb)
      rw [clamp_pfnEnd] at hle
      omega
    · exact .inl (by omega)

/-- **The table is as it should be**, whatever `malloc` leaves, exactly if the blocks are. -/
theorem table_ok_iff (d : Discontig) (hint : getNumMmDiscontigmem d < 2 ^ 31)
    (haccept : ∃ junk t, (∀ i, (junk i).Fits) ∧ getMmDiscontigmem d junk = some t) :
    (∀ junk t, (∀ i, (junk i).Fits) → getMmDiscontigmem d junk = some t → TableOk d t) ↔
      BlocksOk d := by
  refine ⟨fun h => ?_, fun hb junk t _ ht => hb.tableOk ht⟩
  obtain ⟨junk0, t0, hfits, h0⟩ := haccept
  exact blocksOk_of_tableOk h0 (online_of_tableOk h0 hfits hint h) (h junk0 t0 hfits h0)

/-! ## Nodes -/

/-- Two nodes with a gap between them and one behind the second. -/
def twoNodes : Discontig where
  pageShift := 12
  sizeofPage := 64
  maxMapnr := 20
  nodes := [⟨0, 0, 4, 0x1000⟩, ⟨1, 8, 8, 0x2000⟩]
  ordered := by decide

/-- Their table: the two nodes and two entries for the gaps. -/
def twoNodesTable : MemMapTable where
  numMemMap := 4
  writes := [(0, ⟨0, 4, 0x1000⟩), (1, ⟨4, 8, 0⟩), (2, ⟨8, 16, 0x2000⟩), (3, ⟨16, 20, 0⟩)]

theorem twoNodes_ok : getMmDiscontigmem twoNodes (fun _ => ⟨0, 0, 0⟩) = some twoNodesTable ∧
    TableOk twoNodes twoNodesTable := by
  have haccept : getMmDiscontigmem twoNodes (fun _ => ⟨0, 0, 0⟩) = some twoNodesTable := by
    decide +kernel
  have hblocks : nodeBlocks twoNodes = [⟨0, 4, 0x1000⟩, ⟨8, 16, 0x2000⟩] := by decide +kernel
  have hfits : (⟨0, 0, 0⟩ : MemMapData).Fits := ⟨by decide, by decide, by decide⟩
  refine ⟨haccept, (table_ok_iff twoNodes (by decide +kernel) ⟨_, _, fun _ => hfits, haccept⟩).2
    ⟨fun hs => ?_, ?_, ?_⟩ _ _ (fun _ => hfits) haccept⟩
  · exact absurd hs (by decide +kernel)
  · rw [hblocks]
    decide
  · exact fun hx => absurd hx (by decide)

/-- A domain 0 whose memory ends with its only node, on a machine with more. -/
def xenNode : Discontig where
  pageShift := 12
  sizeofPage := 64
  maxMapnr := 16
  xen := true
  dom0Mapnr := 8
  nodes := [⟨0, 0, 8, 0x1000⟩]
  ordered := by decide

/-- Two entries are allocated and one is written. -/
theorem xenNode_incomplete : ∃ t, (∀ junk, getMmDiscontigmem xenNode junk = some t) ∧
    ¬ TableOk xenNode t := by
  refine ⟨{ numMemMap := 2, writes := [(0, ⟨0, 8, 0x1000⟩)] }, fun junk => ?_,
    fun h => absurd h.filled (by decide)⟩
  have haccept : getMmDiscontigmem xenNode (fun _ => ⟨0, 0, 0⟩) = some
      { numMemMap := 2, writes := [(0, ⟨0, 8, 0x1000⟩)] } := by decide +kernel
  rw [(getMm_eq haccept).2.2 junk, ← haccept, (getMm_eq haccept).2.2]
  rfl

end Memmap
