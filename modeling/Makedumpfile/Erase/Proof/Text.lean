import Mathlib.Data.List.Nodup
import Makedumpfile.Erase.Proof.Reach
import Makedumpfile.Erase.Text

/-!
# The text tells what was erased

The pieces that the pages take out of the list (`pagePieces`) are the `memset`s of a dump. An entry
is known by its command and its iteration (`FilterInfo.key`): a run cuts it from its start, so at any
time the pieces of an entry cover the bytes up to a place `r`, the rest is one node of the list, and
the size in the table is the length of the erased part (`Progress`, kept by `Run.extract`). Attempts
that failed before they erased anything leave the list and the table as they were (`beforeLast_same`).
-/

namespace Erase

open Lib ByteFile

/-! ## The pieces of a dump -/

/-- The entries that `filter_data_buffer` takes for a page. -/
def pieces (paddr size : Nat) (s : Filter) : List FilterInfo × Filter :=
  match _h : extractFilterInfo paddr (paddr + size) s with
  | none => ([], s)
  | some (fi, s') =>
    let r := pieces paddr size s'
    (fi :: r.1, r.2)
termination_by s.filterInfo.countP (fun f => paddr ≤ f.paddr ∧ f.paddr < paddr + size)
decreasing_by exact extractFilterInfo_count _h

def pagePieces (pageSize : Nat) : List Nat → Filter → List FilterInfo × Filter
  | [], s => ([], s)
  | q :: pages, s =>
    let r := pieces (q * pageSize) pageSize s
    let r' := pagePieces pageSize pages r.2
    (r.1 ++ r'.1, r'.2)

theorem pieces_none {p n : Nat} {s : Filter} (h : extractFilterInfo p (p + n) s = none) :
    pieces p n s = ([], s) := by
  rw [pieces]
  split
  · rfl
  · rename_i fi s' h'
    rw [h] at h'
    cases h'

theorem pieces_some {p n : Nat} {s s' : Filter} {fi : FilterInfo}
    (h : extractFilterInfo p (p + n) s = some (fi, s')) :
    pieces p n s = (fi :: (pieces p n s').1, (pieces p n s').2) := by
  rw [pieces]
  split
  · rename_i h'
    rw [h] at h'
    cases h'
  · rename_i fi' s'' h'
    rw [h] at h'
    cases h'
    rfl

/-- The pages are erased by the pieces and nothing else. -/
theorem filterDataBuffer_pieces {p n : Nat} {s : Filter} (buf : List UInt8) :
    filterDataBuffer buf p n s =
      ((pieces p n s).1.foldl (fun b fi => fi.erase p b) buf, (pieces p n s).2) := by
  generalize hc : s.filterInfo.countP (fun f => p ≤ f.paddr ∧ f.paddr < p + n) = k
  induction k using Nat.strongRecOn generalizing s buf with
  | ind k ih =>
    cases he : extractFilterInfo p (p + n) s with
    | none => rw [filterDataBuffer_none he, pieces_none he, List.foldl_nil]
    | some r =>
      obtain ⟨fi, s'⟩ := r
      rw [filterDataBuffer_some he, pieces_some he,
        ih _ (hc ▸ extractFilterInfo_count he) _ rfl, List.foldl_cons]

theorem filterPages_pieces {pageSize : Nat} : ∀ (pages : List Nat) (s : Filter)
    (mem : Nat → List UInt8), (filterPages pageSize pages s mem).1 = (pagePieces pageSize pages s).2
  | [], _, _ => rfl
  | q :: pages, s, mem => by
    rw [filterPages, filterDataBuffer_pieces]
    exact filterPages_pieces pages _ _

/-- What the extraction of an entry keeps, the pieces of a page keep. -/
theorem pieces_inv {p n : Nat} {P : Filter → List FilterInfo → Prop}
    (hstep : ∀ s log fi s', extractFilterInfo p (p + n) s = some (fi, s') → P s log →
      P s' (log ++ [fi])) (s : Filter) (log : List FilterInfo) (h : P s log) :
    P (pieces p n s).2 (log ++ (pieces p n s).1) ∧
      extractFilterInfo p (p + n) (pieces p n s).2 = none := by
  generalize hc : s.filterInfo.countP (fun f => p ≤ f.paddr ∧ f.paddr < p + n) = k
  induction k using Nat.strongRecOn generalizing s log with
  | ind k ih =>
    cases he : extractFilterInfo p (p + n) s with
    | none =>
      rw [pieces_none he, List.append_nil]
      exact ⟨h, he⟩
    | some r =>
      obtain ⟨fi, s'⟩ := r
      rw [pieces_some he]
      have := ih _ (hc ▸ extractFilterInfo_count he) s' (log ++ [fi]) (hstep s log fi s' he h) rfl
      rwa [List.append_assoc, List.singleton_append] at this

/-! ## The table -/

/-- The command and the iteration of an entry. -/
def FilterInfo.key (f : FilterInfo) : Nat × Nat := (f.eraseInfoIdx, f.sizeIdx)

@[simp] theorem splitFilterInfo_key (f : FilterInfo) (p n : Nat) :
    (splitFilterInfo f p n).key = f.key := rfl

def EraseInfo.slot (ei : EraseInfo) (j : Nat) : Int := (ei.sizes.getD []).getD j 0

/-- The size in the table for a command and an iteration. -/
def Filter.slot (s : Filter) (k : Nat × Nat) : Int := (s.node k.1).slot k.2

/-- What a run does not change in a node. -/
def EraseInfo.command (ei : EraseInfo) : String × Nat := (ei.symbolExpr, ei.numSizes)

/-- The sizes are allocated when something is erased. -/
structure EraseInfo.Ok (ei : EraseInfo) : Prop where
  length : ∀ l, ei.sizes = some l → l.length = ei.numSizes
  erased : ei.erased = ei.sizes.isSome

/-- A node after `update_erase_info`. -/
def EraseInfo.add (ei : EraseInfo) (fi : FilterInfo) : EraseInfo :=
  { ei with
    erased := true
    sizes := some ((ei.sizes.getD (List.replicate ei.numSizes 0)).modify fi.sizeIdx fun n =>
      if fi.nullify then -1 else n + fi.size) }

theorem updateEraseInfo_eraseInfo {fi : FilterInfo} (s : Filter) (h : fi.eraseInfoIdx ≠ 0) :
    (updateEraseInfo fi s).eraseInfo =
      s.eraseInfo.modify (fi.eraseInfoIdx - 1) fun ei => ei.add fi := by
  rw [updateEraseInfo, if_neg h]
  rfl

@[simp] theorem EraseInfo.add_command (ei : EraseInfo) (fi : FilterInfo) :
    (ei.add fi).command = ei.command := rfl

theorem EraseInfo.Ok.add {ei : EraseInfo} (h : ei.Ok) (fi : FilterInfo) : (ei.add fi).Ok := by
  refine ⟨fun l hl => ?_, rfl⟩
  simp only [EraseInfo.add, Option.some.injEq] at hl
  rw [← hl, List.length_modify]
  cases hs : ei.sizes with
  | none => simp [EraseInfo.add]
  | some l' => exact h.length l' hs

theorem EraseInfo.Ok.slot_add {ei : EraseInfo} (h : ei.Ok) {fi : FilterInfo}
    (hj : fi.sizeIdx < ei.numSizes) (j : Nat) :
    (ei.add fi).slot j =
      if j = fi.sizeIdx then (if fi.nullify then -1 else ei.slot j + fi.size) else ei.slot j := by
  have hlen : (ei.sizes.getD (List.replicate ei.numSizes 0)).length = ei.numSizes := by
    cases hs : ei.sizes with
    | none => simp
    | some l => exact h.length l hs
  have hold : (ei.sizes.getD (List.replicate ei.numSizes 0)).getD j 0 = ei.slot j := by
    unfold EraseInfo.slot
    cases ei.sizes with
    | none => simp [List.getElem?_replicate]; split <;> rfl
    | some l => rfl
  rw [← hold]
  simp only [EraseInfo.slot, EraseInfo.add, Option.getD_some, List.getD_eq_getElem?_getD,
    List.getElem?_modify]
  by_cases he : fi.sizeIdx = j
  · subst he
    rw [if_pos rfl, List.getElem?_eq_getElem (by omega)]
    simp
  · rw [if_neg (Ne.symm he)]
    simp [he]

/-! ## The progress of an entry -/

/-- The pieces of `e` cover its bytes up to `r`, the rest is in the list, and the size in the table
is that of the erased part. -/
structure Progress (e : FilterInfo) (s : Filter) (log : List FilterInfo) (r : Nat) : Prop where
  lower : e.paddr ≤ r
  upper : r ≤ e.paddr + e.size
  rest : s.filterInfo.filter (·.key = e.key) =
    if r = e.paddr + e.size then []
    else [{ e with paddr := r, size := e.paddr + e.size - r }]
  covered : ∀ a, (∃ g ∈ log, g.key = e.key ∧ g.Covers a) ↔ e.paddr ≤ a ∧ a < r
  slot : s.slot e.key = if r = e.paddr then 0 else if e.nullify then -1 else ((r - e.paddr : Nat) : Int)

/-- The entries `l` of a run with the table's commands `cmds`: each has a command and an iteration of
it, and no two have the same. -/
structure Keyed (l : List FilterInfo) (cmds : List (String × Nat)) : Prop where
  nodup : (l.map FilterInfo.key).Nodup
  command : ∀ e ∈ l, e.eraseInfoIdx ≠ 0 ∧
    ∃ c, cmds[e.eraseInfoIdx - 1]? = some c ∧ e.sizeIdx < c.2
  size : ∀ e ∈ l, 0 < e.size
  all : ∀ i c, cmds[i]? = some c → ∀ j < c.2, ∃ e ∈ l, e.key = (i + 1, j)

theorem Keyed.inj {l : List FilterInfo} {cmds : List (String × Nat)} (h : Keyed l cmds)
    {e f : FilterInfo} (he : e ∈ l) (hf : f ∈ l) (hk : e.key = f.key) : e = f :=
  List.inj_on_of_nodup_map h.nodup he hf hk

/-- The state of a run: `r` says how far each entry is erased. -/
structure Run (l : List FilterInfo) (cmds : List (String × Nat)) (s : Filter)
    (log : List FilterInfo) (r : FilterInfo → Nat) : Prop where
  cmds : s.eraseInfo.map EraseInfo.command = cmds
  ok : ∀ ei ∈ s.eraseInfo, ei.Ok
  progress : ∀ e ∈ l, Progress e s log (r e)
  nodes : ∀ f ∈ s.filterInfo, ∃ e ∈ l, f.key = e.key
  erased : ∀ i, i ≠ 0 → (s.node i).erased = true → ∃ e ∈ l, e.eraseInfoIdx = i ∧ r e ≠ e.paddr

theorem node_of_command {s : Filter} {cmds : List (String × Nat)} {i : Nat} {c : String × Nat}
    (h : s.eraseInfo.map EraseInfo.command = cmds) (hc : cmds[i - 1]? = some c) :
    s.node i ∈ s.eraseInfo ∧ (s.node i).command = c ∧ i - 1 < s.eraseInfo.length := by
  rw [← h, List.getElem?_map] at hc
  obtain ⟨ei, he, rfl⟩ := Option.map_eq_some_iff.1 hc
  obtain ⟨hi, he'⟩ := List.getElem?_eq_some_iff.1 he
  have hn : s.node i = ei := by simp [Filter.node, List.getD_eq_getElem?_getD, he]
  rw [hn]
  exact ⟨he' ▸ List.getElem_mem hi, rfl, hi⟩

/-- An extraction in terms of the entry it cuts: `f` was the rest of `e`. -/
theorem Run.extracted {l : List FilterInfo} {cmds : List (String × Nat)} {s s' : Filter}
    {log : List FilterInfo} {r : FilterInfo → Nat} {a b : Nat} {fi : FilterInfo}
    (h : Run l cmds s log r) (hx : extractFilterInfo a b s = some (fi, s')) :
    ∃ e ∈ l, a ≤ r e ∧ r e < b ∧ r e < e.paddr + e.size ∧
      fi = { e with paddr := r e, size := min (e.paddr + e.size) b - r e } ∧
      (∀ k, s'.filterInfo.filter (·.key = k) = if k = e.key then
        (if e.paddr + e.size ≤ b then []
          else [{ e with paddr := b, size := e.paddr + e.size - b }])
        else s.filterInfo.filter (·.key = k)) ∧
      s'.eraseInfo = (updateEraseInfo fi s).eraseInfo := by
  obtain ⟨pre, f, post, hl, h1, h2, hfi, hl'⟩ := extractNode_cases (extractFilterInfo_node hx)
  obtain ⟨e, he, hk⟩ := h.nodes f (by rw [hl]; simp)
  have hp := h.progress e he
  have hrest := hp.rest
  have hmem : f ∈ s.filterInfo.filter (·.key = e.key) := by
    rw [List.mem_filter, hl]
    exact ⟨by simp, by simp [hk]⟩
  rw [hrest] at hmem
  have hne : r e ≠ e.paddr + e.size := by
    intro hc
    rw [if_pos hc] at hmem
    cases hmem
  rw [if_neg hne, List.mem_singleton] at hmem
  have hup := hp.upper
  have hfp : f.paddr = r e := by rw [hmem]
  have hfs : f.size = e.paddr + e.size - r e := by rw [hmem]
  -- the other nodes of the list have other keys
  have hfilter : s.filterInfo.filter (·.key = e.key) = [f] := by
    rw [hrest, if_neg hne, hmem]
  rw [hl, List.filter_append, List.filter_cons_of_pos (by simp [hk])] at hfilter
  have hpre : pre.filter (·.key = e.key) = [] := by
    have := congrArg List.length hfilter
    simp only [List.length_append, List.length_cons, List.length_nil] at this
    exact List.length_eq_zero_iff.1 (by omega)
  have hpost : post.filter (·.key = e.key) = [] := by
    rw [hpre, List.nil_append] at hfilter
    exact (List.cons.inj hfilter).2
  refine ⟨e, he, by omega, by omega, by omega, ?_, fun k => ?_, ?_⟩
  · rw [hfi, hfs, hfp, hmem]
    congr 1
    omega
  · rw [hl', List.filter_append, List.filter_append]
    by_cases hke : k = e.key
    · subst hke
      rw [if_pos rfl, hpre, hpost, hfs, hfp]
      by_cases hb : e.paddr + e.size ≤ b
      · rw [if_pos (by omega), if_pos hb]
        rfl
      · rw [if_neg (by omega), if_neg hb, List.filter_cons_of_pos (by simp [hk])]
        simp only [List.filter_nil, List.nil_append, List.append_nil, splitFilterInfo, hmem]
        congr 2
        omega
    · have hkf : ¬ f.key = k := fun hc => hke (hc.symm.trans hk)
      rw [if_neg hke, hl, List.filter_append, List.filter_cons_of_neg (by simpa using hkf)]
      split
      · rw [List.filter_nil, List.append_nil]
      · rw [List.filter_cons_of_neg (by simp [hkf]), List.filter_nil, List.append_nil]
  · obtain ⟨⟨fi', l'⟩, -, h4⟩ := Option.map_eq_some_iff.1 hx
    cases h4
    unfold updateEraseInfo
    split <;> rfl

theorem node_modify {s s' : Filter} {idx i : Nat} {g : EraseInfo → EraseInfo}
    (h : s'.eraseInfo = s.eraseInfo.modify (idx - 1) g) (hidx : idx ≠ 0) (hi : i ≠ 0)
    (hlt : idx - 1 < s.eraseInfo.length) :
    s'.node i = if i = idx then g (s.node i) else s.node i := by
  simp only [Filter.node, h, List.getD_eq_getElem?_getD, List.getElem?_modify]
  by_cases he : i = idx
  · subst he
    rw [if_pos rfl, List.getElem?_eq_getElem hlt]
    simp
  · have hne : idx - 1 ≠ i - 1 := by omega
    simp [he, hne]

theorem Run.extract {l : List FilterInfo} {cmds : List (String × Nat)} {s s' : Filter}
    {log : List FilterInfo} {r : FilterInfo → Nat} {a b : Nat} {fi : FilterInfo}
    (hkey : Keyed l cmds) (h : Run l cmds s log r)
    (hx : extractFilterInfo a b s = some (fi, s')) :
    ∃ e ∈ l, a ≤ r e ∧ r e < b ∧ r e < e.paddr + e.size ∧
      Run l cmds s' (log ++ [fi]) (Function.update r e (min (e.paddr + e.size) b)) := by
  obtain ⟨e, he, ha, hb, hlt, hfi, hfil, htab⟩ := h.extracted hx
  refine ⟨e, he, ha, hb, hlt, ?_⟩
  obtain ⟨hidx, c, hc, hj⟩ := hkey.command e he
  obtain ⟨hnode, hcmd, hlen⟩ := node_of_command h.cmds hc
  have hfk : fi.key = e.key := by rw [hfi]; rfl
  have hfidx : fi.eraseInfoIdx = e.eraseInfoIdx := congrArg Prod.fst hfk
  have hfj : fi.sizeIdx = e.sizeIdx := congrArg Prod.snd hfk
  rw [updateEraseInfo_eraseInfo s (by rwa [hfidx]), hfidx] at htab
  have hjn : fi.sizeIdx < (s.node e.eraseInfoIdx).numSizes := by
    rw [hfj]
    exact hj.trans_eq (congrArg Prod.snd hcmd).symm
  have hprog := h.progress e he
  have hlo := hprog.lower
  have hslot : ∀ k : Nat × Nat, k.1 ≠ 0 → s'.slot k = if k = e.key then
      (if e.nullify then -1 else s.slot k + fi.size) else s.slot k := by
    intro k hk
    rw [Filter.slot, node_modify htab hidx hk hlen]
    by_cases h1 : k.1 = e.eraseInfoIdx
    · rw [if_pos h1, h1, (h.ok _ hnode).slot_add hjn, hfj]
      have hn : fi.nullify = e.nullify := by rw [hfi]
      by_cases h2 : k.2 = e.sizeIdx
      · rw [if_pos h2, if_pos (Prod.ext h1 h2), hn, Filter.slot, h1]
      · rw [if_neg h2, if_neg fun hc => h2 (congrArg Prod.snd hc), Filter.slot, h1]
    · rw [if_neg h1, if_neg fun hc => h1 (congrArg Prod.fst hc)]
      rfl
  refine ⟨?_, ?_, fun g hg => ?_, fun f hf => ?_, fun i hi her => ?_⟩
  · rw [htab, ← h.cmds]
    refine List.ext_getElem? fun i => ?_
    simp only [List.getElem?_map, List.getElem?_modify]
    cases s.eraseInfo[i]? with
    | none => rfl
    | some ei =>
      simp only [Option.map_some, Option.map_eq_map, Option.some.injEq]
      split <;> rfl
  · intro ei hei
    rw [htab] at hei
    obtain ⟨i, hi⟩ := List.mem_iff_getElem?.1 hei
    rw [List.getElem?_modify] at hi
    obtain ⟨ei', he', rfl⟩ := Option.map_eq_some_iff.1 hi
    have hok := h.ok ei' (List.mem_of_getElem? he')
    split
    · exact hok.add fi
    · exact hok
  · have hgp := h.progress g hg
    by_cases hge : g = e
    · subst hge
      rw [Function.update_self]
      refine ⟨by omega, by omega, ?_, fun x => ?_, ?_⟩
      · rw [hfil, if_pos rfl]
        by_cases hbe : g.paddr + g.size ≤ b
        · rw [if_pos hbe, if_pos (by omega)]
        · rw [if_neg hbe, if_neg (by omega), Nat.min_eq_right (by omega)]
      · constructor
        · rintro ⟨y, hy, hyk, hyc⟩
          rcases List.mem_append.1 hy with hy | hy
          · have := (hgp.covered x).1 ⟨y, hy, hyk, hyc⟩
            omega
          · rw [List.mem_singleton.1 hy, hfi] at hyc
            simp only [FilterInfo.Covers] at hyc
            omega
        · rintro ⟨h1, h2⟩
          by_cases hxr : x < r g
          · obtain ⟨y, hy, hyk⟩ := (hgp.covered x).2 ⟨h1, hxr⟩
            exact ⟨y, List.mem_append_left _ hy, hyk⟩
          · refine ⟨fi, by simp, hfk, ?_⟩
            rw [hfi]
            simp only [FilterInfo.Covers]
            omega
      · have hne : min (g.paddr + g.size) b ≠ g.paddr := by omega
        rw [hslot _ hidx, if_pos rfl, if_neg hne, hgp.slot, hfi]
        cases g.nullify with
        | true => rfl
        | false =>
          simp only [Bool.false_eq_true, if_false]
          split <;> omega
    · have hkne : g.key ≠ e.key := fun hc => hge (hkey.inj hg he hc)
      rw [Function.update_of_ne hge]
      refine ⟨hgp.lower, hgp.upper, ?_, fun x => ?_, ?_⟩
      · rw [hfil, if_neg hkne]
        exact hgp.rest
      · rw [← hgp.covered x]
        constructor
        · rintro ⟨y, hy, hyk, hyc⟩
          rcases List.mem_append.1 hy with hy | hy
          · exact ⟨y, hy, hyk, hyc⟩
          · rw [List.mem_singleton.1 hy, hfk] at hyk
            exact absurd hyk.symm hkne
        · rintro ⟨y, hy, hyk⟩
          exact ⟨y, List.mem_append_left _ hy, hyk⟩
      · rw [hslot _ (hkey.command g hg).1, if_neg hkne]
        exact hgp.slot
  · have hmem : f ∈ s'.filterInfo.filter (·.key = f.key) := by simp [hf]
    rw [hfil] at hmem
    split at hmem
    · rename_i hk
      exact ⟨e, he, hk⟩
    · exact h.nodes f (List.mem_filter.1 hmem).1
  · by_cases hie : i = e.eraseInfoIdx
    · refine ⟨e, he, hie.symm, ?_⟩
      rw [Function.update_self]
      omega
    · rw [node_modify htab hidx hi hlen, if_neg hie] at her
      obtain ⟨g, hg, hgi, hgr⟩ := h.erased i hi her
      refine ⟨g, hg, hgi, ?_⟩
      rw [Function.update_of_ne]
      · exact hgr
      · rintro rfl
        exact hie hgi.symm

/-! ## The pages of a dump -/

section
variable {pageSize : Nat} {l : List FilterInfo} {cmds : List (String × Nat)}

/-- The entries of which something is erased are those that start in a page of `D`. -/
def Starts (pageSize : Nat) (l : List FilterInfo) (r : FilterInfo → Nat) (D : Nat → Prop) : Prop :=
  ∀ e ∈ l, r e ≠ e.paddr ↔ D (e.paddr / pageSize)

theorem Run.page {s : Filter} {log : List FilterInfo} {r : FilterInfo → Nat} {D : Nat → Prop}
    (hp : 0 < pageSize) (hkey : Keyed l cmds) (q : Nat) (h : Run l cmds s log r)
    (hs : Starts pageSize l r D) :
    ∃ r', Run l cmds (pieces (q * pageSize) pageSize s).2
        (log ++ (pieces (q * pageSize) pageSize s).1) r' ∧
      Starts pageSize l r' (fun k => k = q ∨ D k) := by
  obtain ⟨⟨r', hr, hin, hkeep⟩, hend⟩ := pieces_inv (p := q * pageSize) (n := pageSize)
    (P := fun s log => ∃ r, Run l cmds s log r ∧
      (∀ e ∈ l, r e ≠ e.paddr → e.paddr / pageSize = q ∨ D (e.paddr / pageSize)) ∧
      ∀ e ∈ l, D (e.paddr / pageSize) → r e ≠ e.paddr)
    (fun s log fi s' hx ⟨r, hr, hin, hkeep⟩ => by
      obtain ⟨e, he, h1, h2, h3, hr'⟩ := hr.extract hkey hx
      have hlo := (hr.progress e he).lower
      refine ⟨_, hr', fun g hg hne => ?_, fun g hg hd => ?_⟩
      · by_cases hge : g = e
        · by_cases hre : r g = g.paddr
          · subst hge
            rw [hre] at h1 h2
            exact .inl (page_eq h1 h2)
          · exact hin g hg hre
        · rw [Function.update_of_ne hge] at hne
          exact hin g hg hne
      · by_cases hge : g = e
        · subst hge
          rw [Function.update_self]
          omega
        · rw [Function.update_of_ne hge]
          exact hkeep g hg hd)
    s log ⟨r, h, fun e he hne => .inr ((hs e he).1 hne), fun e he hd => (hs e he).2 hd⟩
  refine ⟨r', hr, fun e he => ⟨hin e he, ?_⟩⟩
  rintro (hq | hd)
  · -- an untouched entry would still start in the page
    intro hre
    have hprog := hr.progress e he
    have hsize := hkey.size e he
    have hrest := hprog.rest
    rw [if_neg (by omega), hre] at hrest
    have hmem : e ∈ (pieces (q * pageSize) pageSize s).2.filterInfo := by
      refine (List.mem_filter.1 (?_ : e ∈ List.filter (fun f => f.key = e.key) _)).1
      rw [hrest, List.mem_singleton, Nat.add_sub_cancel_left]
    have hnone := extractNode_none (Option.map_eq_none_iff.1 hend) e hmem
    have h1 := Nat.div_add_mod e.paddr pageSize
    have h2 := Nat.mod_lt e.paddr hp
    rw [hq, Nat.mul_comm] at h1
    omega
  · exact hkeep e he hd

theorem Run.pages (hp : 0 < pageSize) (hkey : Keyed l cmds) : ∀ (pages : List Nat) {s : Filter}
    {log : List FilterInfo} {r : FilterInfo → Nat} {D : Nat → Prop}, Run l cmds s log r →
    Starts pageSize l r D →
    ∃ r', Run l cmds (pagePieces pageSize pages s).2 (log ++ (pagePieces pageSize pages s).1) r' ∧
      Starts pageSize l r' (fun k => k ∈ pages ∨ D k)
  | [], s, log, r, D, h, hs => by
    refine ⟨r, by simpa [pagePieces] using h, ?_⟩
    simpa using hs
  | q :: pages, s, log, r, D, h, hs => by
    obtain ⟨r1, h1, hs1⟩ := h.page hp hkey q hs
    obtain ⟨r2, h2, hs2⟩ := Run.pages hp hkey pages h1 hs1
    refine ⟨r2, ?_, fun e he => ?_⟩
    · rw [List.append_assoc] at h2
      exact h2
    · rw [hs2 e he]
      show _ ↔ e.paddr / pageSize ∈ q :: pages ∨ _
      rw [List.mem_cons]
      tauto

theorem filter_key_eq : ∀ {l : List FilterInfo} {e : FilterInfo},
    (l.map FilterInfo.key).Nodup → e ∈ l → l.filter (·.key = e.key) = [e]
  | f :: l, e, hn, he => by
    rw [List.map_cons, List.nodup_cons] at hn
    have hne : ∀ g ∈ l, g.key ≠ f.key := fun g hg hc => hn.1 (hc ▸ List.mem_map_of_mem hg)
    rcases List.mem_cons.1 he with rfl | he
    · rw [List.filter_cons_of_pos (by simp), List.filter_eq_nil_iff.2 fun g hg => by
        simpa using hne g hg]
    · rw [List.filter_cons_of_neg (by simpa using (hne e he).symm)]
      exact filter_key_eq hn.2 he

/-- The start of a run. -/
theorem Run.init {s : Filter} (hkey : Keyed s.filterInfo (s.eraseInfo.map EraseInfo.command))
    (hnew : ∀ ei ∈ s.eraseInfo, ei.sizes = none ∧ ei.erased = false) :
    Run s.filterInfo (s.eraseInfo.map EraseInfo.command) s [] (·.paddr) := by
  refine ⟨rfl, fun ei hei => ?_, fun e he => ?_, fun f hf => ⟨f, hf, rfl⟩, fun i hi her => ?_⟩
  · obtain ⟨h1, h2⟩ := hnew ei hei
    exact ⟨by simp [h1], by simp [h1, h2]⟩
  · have hsize := hkey.size e he
    refine ⟨Nat.le_refl _, by omega, ?_, fun a => ?_, ?_⟩
    · rw [if_neg (by omega), filter_key_eq hkey.nodup he, Nat.add_sub_cancel_left]
    · simp
    · obtain ⟨-, c, hc, -⟩ := hkey.command e he
      have hnode := (node_of_command rfl hc).1
      rw [if_pos rfl, Filter.slot, EraseInfo.slot]
      have := (hnew _ hnode).1
      simp only [FilterInfo.key]
      rw [this]
      rfl
  · exfalso
    rw [Filter.node, List.getD_eq_getElem?_getD] at her
    cases hg : s.eraseInfo[i - 1]? with
    | none => simp [hg] at her
    | some ei =>
      have := (hnew ei (List.mem_of_getElem? hg)).2
      simp [hg, this] at her

end

/-! ## Entering the requests -/

theorem insertFilterInfo_perm {fl : FilterInfo} : ∀ {l : List FilterInfo},
    (insertFilterInfo fl l).1 = true → (insertFilterInfo fl l).2.Perm (fl :: l)
  | [], _ => .refl _
  | p :: l, h => by
    unfold insertFilterInfo at h ⊢
    split
    · rename_i hle
      rw [if_pos hle] at h
      split at h
      · cases h
      · rename_i hne
        rw [if_neg hne]
    · rename_i hle
      rw [if_neg hle] at h
      exact ((insertFilterInfo_perm h).cons p).trans (List.Perm.swap _ _ _)

theorem insertFilterInfo_keys {fl : FilterInfo} : ∀ {l : List FilterInfo},
    (insertFilterInfo fl l).1 = false →
    (insertFilterInfo fl l).2.map FilterInfo.key = l.map FilterInfo.key ∧
      ∀ f ∈ (insertFilterInfo fl l).2, ∃ g ∈ l, f.key = g.key ∧ g.size ≤ f.size
  | [], h => by simp [insertFilterInfo] at h
  | p :: l, h => by
    unfold insertFilterInfo at h ⊢
    split
    · rename_i hle
      rw [if_pos hle] at h
      split at h
      · rename_i he
        rw [if_pos he]
        refine ⟨rfl, fun f hf => ?_⟩
        rcases List.mem_cons.1 hf with rfl | hf
        · refine ⟨p, List.mem_cons_self, rfl, ?_⟩
          dsimp only
          split <;> omega
        · exact ⟨f, List.mem_cons_of_mem _ hf, rfl, Nat.le_refl _⟩
      · cases h
    · rename_i hle
      rw [if_neg hle] at h
      obtain ⟨h1, h2⟩ := insertFilterInfo_keys h
      refine ⟨by rw [List.map_cons, h1, List.map_cons], fun f hf => ?_⟩
      rcases List.mem_cons.1 hf with rfl | hf
      · exact ⟨f, List.mem_cons_self, rfl, Nat.le_refl _⟩
      · obtain ⟨g, hg, h3⟩ := h2 f hf
        exact ⟨g, List.mem_cons_of_mem _ hg, h3⟩

/-- Only the start of the new entry decides where it goes. -/
theorem insertFilterInfo_fst {fl fl' : FilterInfo} (hp : fl.paddr = fl'.paddr) :
    ∀ l : List FilterInfo, (insertFilterInfo fl l).1 = (insertFilterInfo fl' l).1
  | [] => rfl
  | p :: l => by
    unfold insertFilterInfo
    rw [hp]
    split
    · split <;> rfl
    · exact insertFilterInfo_fst hp l

/-- The list is sorted by start, without duplicates. -/
def Sorted (l : List FilterInfo) : Prop := l.Pairwise fun f g => f.paddr < g.paddr

theorem insertFilterInfo_sorted {fl : FilterInfo} : ∀ {l : List FilterInfo}, Sorted l →
    Sorted (insertFilterInfo fl l).2
  | [], _ => List.pairwise_singleton _ _
  | p :: l, h => by
    obtain ⟨h1, h2⟩ := List.pairwise_cons.1 h
    unfold insertFilterInfo
    split
    · split
      · exact List.pairwise_cons.2 ⟨h1, h2⟩
      · refine List.pairwise_cons.2 ⟨fun g hg => ?_, h⟩
        rcases List.mem_cons.1 hg with rfl | hg
        · omega
        · have := h1 g hg
          omega
    · refine List.pairwise_cons.2 ⟨fun g hg => ?_, insertFilterInfo_sorted h2⟩
      rcases insertFilterInfo_mem hg with rfl | hg | ⟨-, -, -, hgp, -⟩
      · omega
      · exact h1 g hg
      · omega

/-- An entry that is in the list already changes nothing. -/
theorem insertFilterInfo_again {fl f : FilterInfo} : ∀ {l : List FilterInfo}, Sorted l → f ∈ l →
    f.paddr = fl.paddr → fl.size ≤ f.size → insertFilterInfo fl l = (false, l)
  | p :: l, h, hf, hp, hs => by
    obtain ⟨h1, h2⟩ := List.pairwise_cons.1 h
    unfold insertFilterInfo
    rcases List.mem_cons.1 hf with rfl | hf
    · rw [if_pos (by omega), if_pos hp.symm, if_neg (by omega)]
    · have := h1 f hf
      rw [if_neg (by omega), insertFilterInfo_again h2 hf hp hs]

theorem Keyed.of_keys {l l' : List FilterInfo} {cmds : List (String × Nat)} (h : Keyed l cmds)
    (hk : l'.map FilterInfo.key = l.map FilterInfo.key)
    (hm : ∀ f ∈ l', ∃ g ∈ l, f.key = g.key ∧ g.size ≤ f.size) : Keyed l' cmds := by
  refine ⟨hk ▸ h.nodup, fun e he => ?_, fun e he => ?_, fun i c hc j hj => ?_⟩
  · obtain ⟨g, hg, hkg, -⟩ := hm e he
    have h1 : e.eraseInfoIdx = g.eraseInfoIdx := congrArg Prod.fst hkg
    have h2 : e.sizeIdx = g.sizeIdx := congrArg Prod.snd hkg
    rw [h1, h2]
    exact h.command g hg
  · obtain ⟨g, hg, -, hs⟩ := hm e he
    exact Nat.lt_of_lt_of_le (h.size g hg) hs
  · obtain ⟨e, he, hke⟩ := h.all i c hc j hj
    have : (i + 1, j) ∈ l'.map FilterInfo.key := by
      rw [hk, ← hke]
      exact List.mem_map_of_mem he
    obtain ⟨f, hf, hkf⟩ := List.mem_map.1 this
    exact ⟨f, hf, hkf⟩

/-- A new entry with the next iteration of a command. -/
theorem Keyed.insert {l l' : List FilterInfo} {cmds cmds' : List (String × Nat)} {i : Nat}
    {x : String × Nat} {fl : FilterInfo} (h : Keyed l cmds) (hperm : l'.Perm (fl :: l))
    (hkey : fl.key = (i + 1, x.2)) (hsize : 0 < fl.size) (hx : cmds'[i]? = some (x.1, x.2 + 1))
    (hold : cmds[i]? = some x ∨ cmds[i]? = none ∧ x.2 = 0)
    (hother : ∀ i', i' ≠ i → cmds'[i']? = cmds[i']?) : Keyed l' cmds' := by
  have hnew : ∀ e ∈ l, e.key ≠ fl.key := by
    intro e he hc
    obtain ⟨h0, c, hc', hj⟩ := h.command e he
    have h1 : e.eraseInfoIdx = i + 1 := congrArg Prod.fst (hc.trans hkey)
    have h2 : e.sizeIdx = x.2 := congrArg Prod.snd (hc.trans hkey)
    rw [h1, Nat.add_sub_cancel] at hc'
    rcases hold with ho | ⟨ho, -⟩
    · rw [ho] at hc'
      cases hc'
      omega
    · rw [ho] at hc'
      cases hc'
  have h1 : fl.eraseInfoIdx = i + 1 := congrArg Prod.fst hkey
  have h2 : fl.sizeIdx = x.2 := congrArg Prod.snd hkey
  refine ⟨?_, fun e he => ?_, fun e he => ?_, fun i' c hc j hj => ?_⟩
  · rw [(hperm.map FilterInfo.key).nodup_iff, List.map_cons, List.nodup_cons]
    refine ⟨fun hc => ?_, h.nodup⟩
    obtain ⟨e, he, hke⟩ := List.mem_map.1 hc
    exact hnew e he hke
  · rcases List.mem_cons.1 (hperm.mem_iff.1 he) with rfl | he
    · refine ⟨by omega, _, by rw [h1, Nat.add_sub_cancel]; exact hx, ?_⟩
      rw [h2]
      exact Nat.lt_succ_self _
    · obtain ⟨h0, c, hc, hj⟩ := h.command e he
      refine ⟨h0, ?_⟩
      by_cases hi : e.eraseInfoIdx - 1 = i
      · rw [hi] at hc ⊢
        rcases hold with ho | ⟨ho, -⟩
        · rw [ho] at hc
          cases hc
          exact ⟨_, hx, by dsimp only; omega⟩
        · rw [ho] at hc
          cases hc
      · rw [hother _ hi]
        exact ⟨c, hc, hj⟩
  · rcases List.mem_cons.1 (hperm.mem_iff.1 he) with rfl | he
    · exact hsize
    · exact h.size e he
  · by_cases hi : i' = i
    · subst hi
      rw [hx] at hc
      cases hc
      by_cases hjx : j = x.2
      · exact ⟨fl, hperm.mem_iff.2 List.mem_cons_self, by rw [hkey, hjx]⟩
      · rcases hold with ho | ⟨-, h0⟩
        · obtain ⟨e, he, hke⟩ := h.all i' x ho j (by dsimp only at hj; omega)
          exact ⟨e, hperm.mem_iff.2 (List.mem_cons_of_mem _ he), hke⟩
        · dsimp only at hj
          omega
    · rw [hother i' hi] at hc
      obtain ⟨e, he, hke⟩ := h.all i' c hc j hj
      exact ⟨e, hperm.mem_iff.2 (List.mem_cons_of_mem _ he), hke⟩

/-- What entering requests from the configuration file keeps. -/
structure Entered (s : Filter) : Prop where
  keyed : Keyed s.filterInfo (s.eraseInfo.map EraseInfo.command)
  fresh : ∀ ei ∈ s.eraseInfo, ei.sizes = none ∧ ei.erased = false
  idx : ∀ entry, s.entryIdx entry ≤ s.eraseInfo.length
  sorted : Sorted s.filterInfo

/-- The node of a command: the one it has, with one more iteration, or a new one. -/
theorem Entered.addNode {s : Filter} (h : Entered s) (entry : Nat) (expr : String) :
    ∃ i x s', addEraseInfoNode s entry expr = (i + 1, s') ∧
      (s'.eraseInfo.map EraseInfo.command)[i]? = some (x.1, x.2 + 1) ∧
      getSizeIndex s' (i + 1) = x.2 ∧
      ((s.eraseInfo.map EraseInfo.command)[i]? = some x ∨
        (s.eraseInfo.map EraseInfo.command)[i]? = none ∧ x.2 = 0) ∧
      (∀ i', i' ≠ i → (s'.eraseInfo.map EraseInfo.command)[i']? =
        (s.eraseInfo.map EraseInfo.command)[i']?) ∧
      (∀ ei ∈ s'.eraseInfo, ei.sizes = none ∧ ei.erased = false) ∧
      ∀ n, s'.entryIdx n ≤ s'.eraseInfo.length := by
  have hidx := h.idx entry
  unfold addEraseInfoNode
  dsimp only
  split
  · rename_i h0
    obtain ⟨i, hi⟩ : ∃ i, s.entryIdx entry = i + 1 := ⟨s.entryIdx entry - 1, by omega⟩
    have hlt : i < s.eraseInfo.length := by omega
    simp only [hi, Nat.add_sub_cancel]
    refine ⟨i, s.eraseInfo[i].command, _, rfl, ?_, ?_, .inl ?_, fun i' hne => ?_, fun ei hei => ?_,
      fun n => ?_⟩
    · simp [EraseInfo.command, hlt]
    · simp [getSizeIndex, EraseInfo.command, hlt]
    · simp [hlt]
    · simp only [List.getElem?_map, List.getElem?_modify, if_neg (Ne.symm hne)]
      simp
    · obtain ⟨k, hk⟩ := List.mem_iff_getElem?.1 hei
      rw [List.getElem?_modify] at hk
      obtain ⟨ej, hej, rfl⟩ := Option.map_eq_some_iff.1 hk
      have hf := h.fresh ej (List.mem_of_getElem? hej)
      split <;> exact hf
    · simpa using h.idx n
  · refine ⟨s.eraseInfo.length, (expr, 0), _, rfl, ?_, ?_, .inr ⟨by simp, rfl⟩, fun i' hne => ?_,
      fun ei hei => ?_, fun n => ?_⟩
    · simp [EraseInfo.command]
    · simp [getSizeIndex]
    · simp only [List.map_append, List.map_singleton]
      rcases Nat.lt_or_gt_of_ne hne with hlt | hgt
      · rw [List.getElem?_append_left (by simpa using hlt)]
      · rw [List.getElem?_eq_none (by simp; omega), List.getElem?_eq_none (by simp; omega)]
    · rcases List.mem_append.1 hei with hei | hei
      · exact h.fresh ei hei
      · rw [List.mem_singleton.1 hei]
        exact ⟨rfl, rfl⟩
    · have := h.idx n
      simp only [Function.update_apply, List.length_append, List.length_singleton]
      split <;> omega

theorem Entered.enter {s : Filter} (h : Entered s) {vaddrToPaddr : Nat → Nat} (entry : Nat)
    (expr : String) (symAddr : Nat) (size : Int) (nullify : Bool) :
    Entered (enter vaddrToPaddr s (.symbol entry expr symAddr size nullify)) := by
  simp only [Erase.enter, updateFilterInfo]
  split
  · exact h
  split
  · exact h
  rename_i hsize
  split
  · rename_i hins
    obtain ⟨i, x, s', hadd, hx, hj, hold, hother, hfresh, hidx⟩ := h.addNode entry expr
    rw [hadd]
    dsimp only
    rw [hj]
    refine ⟨?_, hfresh, hidx, insertFilterInfo_sorted h.sorted⟩
    refine h.keyed.insert (insertFilterInfo_perm ?_) rfl ?_ hx hold hother
    · refine (insertFilterInfo_fst ?_ _).trans hins
      rfl
    · dsimp only
      omega
  · rename_i hins
    have hins := Bool.eq_false_of_not_eq_true hins
    obtain ⟨h1, h2⟩ := insertFilterInfo_keys hins
    exact ⟨h.keyed.of_keys h1 h2, h.fresh, h.idx, insertFilterInfo_sorted h.sorted⟩

/-- A request from the configuration file. -/
def Request.IsSymbol (r : Request) : Prop :=
  ∃ entry expr symAddr size nullify, r = .symbol entry expr symAddr size nullify

theorem entered_foldl {vaddrToPaddr : Nat → Nat} : ∀ {reqs : List Request} {s : Filter},
    (∀ r ∈ reqs, r.IsSymbol) → Entered s → Entered (reqs.foldl (enter vaddrToPaddr) s)
  | [], _, _, h => h
  | r :: reqs, s, hr, h => by
    obtain ⟨entry, expr, symAddr, size, nullify, rfl⟩ := hr r List.mem_cons_self
    rw [List.foldl_cons]
    exact entered_foldl (fun r' hr' => hr r' (List.mem_cons_of_mem _ hr'))
      (h.enter entry expr symAddr size nullify)

theorem entered_empty : Entered {} :=
  ⟨⟨List.nodup_nil, by simp, by simp, by simp⟩, by simp, by simp, List.Pairwise.nil⟩

theorem entered_gather {vaddrToPaddr : Nat → Nat} {reqs : List Request}
    (hr : ∀ r ∈ reqs, r.IsSymbol) : Entered (gatherFilterInfo vaddrToPaddr reqs) :=
  entered_foldl hr entered_empty

/-! ## Attempts that erase nothing -/

theorem extractNode_eq_none {a b : Nat} : ∀ {l : List FilterInfo},
    (∀ f ∈ l, ¬ (a ≤ f.paddr ∧ f.paddr < b)) → extractNode a b l = none
  | [], _ => rfl
  | f :: l, h => by
    rw [extractNode, if_neg (h f List.mem_cons_self),
      extractNode_eq_none fun g hg => h g (List.mem_cons_of_mem _ hg)]
    rfl

theorem pagePieces_none {pageSize : Nat} (hp : 0 < pageSize) {s : Filter} : ∀ {pages : List Nat},
    (∀ e ∈ s.filterInfo, e.paddr / pageSize ∉ pages) → pagePieces pageSize pages s = ([], s)
  | [], _ => rfl
  | q :: pages, h => by
    have hnone : extractFilterInfo (q * pageSize) (q * pageSize + pageSize) s = none := by
      rw [extractFilterInfo, extractNode_eq_none fun e he hc => ?_]
      · rfl
      · exact h e he (by rw [page_eq hc.1 hc.2]; exact List.mem_cons_self)
    rw [pagePieces, pieces_none hnone]
    dsimp only
    rw [pagePieces_none hp fun e he hc => h e he (List.mem_cons_of_mem _ hc)]
    rfl

/-- A request whose entry is in the list changes nothing when it is entered again. -/
theorem enter_again {vaddrToPaddr : Nat → Nat} {s : Filter} (hs : Sorted s.filterInfo)
    {r : Request} (hr : r.IsSymbol)
    (hcov : ∀ a, r.Covers vaddrToPaddr a →
      ∃ f ∈ s.filterInfo, f.paddr = r.paddr vaddrToPaddr ∧ f.Covers a) :
    enter vaddrToPaddr s r = s := by
  obtain ⟨entry, expr, symAddr, size, nullify, rfl⟩ := hr
  simp only [enter, updateFilterInfo]
  split
  · rfl
  split
  · rfl
  rename_i h1 h2
  have hlen : (Request.symbol entry expr symAddr size nullify).len = size.toNat := by
    simp [Request.len, h1, h2]
  obtain ⟨f, hf, hfp, hfc⟩ := hcov (vaddrToPaddr symAddr + (size.toNat - 1)) (by
    rw [Request.Covers, hlen]
    show vaddrToPaddr symAddr ≤ _ ∧ _ < vaddrToPaddr symAddr + _
    omega)
  have hfp : f.paddr = vaddrToPaddr symAddr := hfp
  have hagain : ∀ fl : FilterInfo, fl.paddr = vaddrToPaddr symAddr → fl.size = size.toNat →
      insertFilterInfo fl s.filterInfo = (false, s.filterInfo) := by
    intro fl hp hsz
    refine insertFilterInfo_again hs hf (by omega) ?_
    unfold FilterInfo.Covers at hfc
    omega
  rw [hagain _ rfl rfl]
  rfl

section
variable {vaddrToPaddr : Nat → Nat} {reqs : List Request} {pageSize : Nat}

theorem gatherAgain_same (hr : ∀ r ∈ reqs, r.IsSymbol) {s : Filter}
    (hf : s.filterInfo = (gatherFilterInfo vaddrToPaddr reqs).filterInfo) :
    gatherAgain vaddrToPaddr reqs s = { s with entryIdx := fun _ => 0 } := by
  have hg := @gathered vaddrToPaddr reqs
  have hsort := (@entered_gather vaddrToPaddr reqs hr).sorted
  have hfold : ∀ rs : List Request, (∀ r ∈ rs, r ∈ reqs) →
      rs.foldl (enter vaddrToPaddr) { s with entryIdx := fun _ => 0 } =
        { s with entryIdx := fun _ => 0 } := by
    intro rs
    induction rs with
    | nil => intro _; rfl
    | cons r rs ih =>
      intro hsub
      have hmem := hsub r List.mem_cons_self
      rw [List.foldl_cons, enter_again (hf ▸ hsort) (hr r hmem) fun a ha => hf ▸ hg.covers r hmem a ha]
      exact ih fun r' hr' => hsub r' (List.mem_cons_of_mem _ hr')
  exact hfold reqs fun r h => h

/-- Attempts that passed no page with the start of an entry leave the list and the table as they
are when they are made for the first time. -/
theorem beforeLast_same (hp : 0 < pageSize) (hr : ∀ r ∈ reqs, r.IsSymbol) (mem : Nat → List UInt8)
    {failed : List (List Nat)} (hfail : ∀ pages ∈ failed,
      ∀ e ∈ (gatherFilterInfo vaddrToPaddr reqs).filterInfo, e.paddr / pageSize ∉ pages) :
    (beforeLast vaddrToPaddr reqs pageSize mem failed).filterInfo =
        (gatherFilterInfo vaddrToPaddr reqs).filterInfo ∧
      (beforeLast vaddrToPaddr reqs pageSize mem failed).eraseInfo =
        (gatherFilterInfo vaddrToPaddr reqs).eraseInfo := by
  induction failed using List.reverseRecOn with
  | nil => exact ⟨rfl, rfl⟩
  | append_singleton failed pages ih =>
    obtain ⟨h1, h2⟩ := ih fun ps hps => hfail ps (List.mem_append_left _ hps)
    have hnone := @pagePieces_none _ hp (beforeLast vaddrToPaddr reqs pageSize mem failed) pages
      (by rw [h1]; exact hfail pages (by simp))
    have hstep : attempt vaddrToPaddr reqs pageSize mem
        (failed.foldl (attempt vaddrToPaddr reqs pageSize mem) {}) pages =
          beforeLast vaddrToPaddr reqs pageSize mem failed := by
      rw [attempt, filterPages_pieces]
      exact congrArg Prod.snd hnone
    have hlast : beforeLast vaddrToPaddr reqs pageSize mem (failed ++ [pages]) =
        { beforeLast vaddrToPaddr reqs pageSize mem failed with entryIdx := fun _ => 0 } := by
      rw [beforeLast, List.foldl_append, List.foldl_cons, List.foldl_nil, hstep]
      exact gatherAgain_same hr h1
    rw [hlast]
    exact ⟨h1, h2⟩

end

end Erase
