import Makedumpfile.Readmem.Proof.Agree

/-!
# Use of unmapped windows

The mmap window belongs to nobody: a cache entry made from it unmaps it when the entry is thrown out,
and `mappage_elf` goes on using it. As long as no step throws out the entry of the present window, or
maps a page from a window that has an entry already (`stepOk`), every window is released at most once
and never used afterwards (`Live`, `window_live`).
-/

namespace Readmem

open Lib

variable {v : Vmcore}

/-- `mappage_elf` would map the page: it is a whole page of the file, followed by another one. -/
def mappable (v : Vmcore) (pgaddr : Nat) : Bool :=
  let offset := paddrToOffset v pgaddr
  let offset2 := paddrToOffset v ((pgaddr + v.pageSize) % 2 ^ 64)
  offset ≠ 0 ∧ pageIsFractional v offset = false ∧ offset2 ≠ 0 ∧ offset2 = offset + v.pageSize

/-- The entry that `cache_alloc` throws out. -/
def victim (s : State) : Option Entry := if s.pool = [] then s.used.getLast? else none

/-- A page that misses and lies in the present window finds no entry of the window; one that cannot be
mapped does not throw out the entry of the window. -/
def stepOk (v : Vmcore) (paddr n : Nat) (s : State) : Bool :=
  let pgaddr := paddr / v.pageSize * v.pageSize
  (cacheSearch pgaddr n s).isSome || !s.flagUsemmap ||
    if mappable v pgaddr then
      !isMappedWithMmap (paddrToOffset v pgaddr) s || s.used.all fun e => e.src ≠ .map s.mmapBuf
    else (victim s).all fun e => e.src ≠ .map s.mmapBuf

/-- The mappings of the entries. -/
def mapIds (l : List Entry) : List Nat :=
  l.filterMap fun e => match e.src with | .map id => some id | .page _ => none

/-- The window in force is mapped, no mapping was released twice, and no entry uses a released one. -/
structure Live (s : State) : Prop where
  window : s.flagUsemmap = true → s.mmapBuf ∉ s.released
  once : s.released.Nodup
  entries : ∀ id ∈ mapIds s.used, id ∉ s.released

/-- With it: each mapping has one entry at most, and all numbers are of mappings made. -/
structure Owned (s : State) : Prop extends Live s where
  distinct : (mapIds s.used).Nodup
  windowLt : s.flagUsemmap = true → s.mmapBuf < s.maps.length
  entriesLt : ∀ id ∈ mapIds s.used, id < s.maps.length
  releasedLt : ∀ id ∈ s.released, id < s.maps.length

theorem mem_mapIds {l : List Entry} {id : Nat} :
    id ∈ mapIds l ↔ ∃ e ∈ l, e.src = .map id := by
  unfold mapIds
  rw [List.mem_filterMap]
  constructor
  · rintro ⟨e, he, h⟩
    cases hs : e.src with
    | page buf =>
      rw [hs] at h
      cases h
    | map k =>
      rw [hs] at h
      cases h
      exact ⟨e, he, hs⟩
  · rintro ⟨e, he, h⟩
    exact ⟨e, he, by rw [h]⟩

/-! ## The steps -/

theorem mapIds_perm {l m : List Entry} (h : l.Perm m) : (mapIds l).Perm (mapIds m) := h.filterMap _

theorem Owned.search {pg n : Nat} {s s' : State} {e : Entry} (h : Owned s)
    (hs : cacheSearch pg n s = some (e, s')) : Owned s' := by
  obtain ⟨he, -, rfl⟩ := cacheSearch_cases hs
  have hp := mapIds_perm (List.perm_cons_erase he)
  exact ⟨⟨h.window, h.once, fun id hid => h.entries id (hp.mem_iff.2 hid)⟩, hp.nodup_iff.1 h.distinct,
    h.windowLt, fun id hid => h.entriesLt id (hp.mem_iff.2 hid), h.releasedLt⟩

/-- What `cache_alloc` does to the mappings: nothing, or it releases the last entry's. -/
theorem cacheAlloc_cases {s s1 : State} {slot : Nat} (h : cacheAlloc s = some (slot, s1)) :
    (victim s = none ∧ s1.used = s.used ∧ s1.released = s.released) ∨
      ∃ e, victim s = some e ∧ s.used = s1.used ++ [e] ∧
        s1.released = (match e.src with | .map id => id :: s.released | .page _ => s.released) := by
  unfold cacheAlloc at h
  unfold victim
  cases hp : s.pool with
  | cons slot' pool =>
    rw [hp] at h
    cases h
    exact .inl ⟨rfl, rfl, rfl⟩
  | nil =>
    rw [hp] at h
    cases hu : s.used.getLast? with
    | none =>
      rw [hu] at h
      cases h
    | some e =>
      rw [hu] at h
      cases h
      have hsplit : s.used = s.used.dropLast ++ [e] := by
        obtain ⟨ys, hys⟩ := List.getLast?_eq_some_iff.1 hu
        rw [hys, List.dropLast_concat]
      refine .inr ⟨e, by simp, ?_, ?_⟩
      · unfold discard
        cases e.src <;> exact hsplit
      · unfold discard
        cases e.src <;> rfl

theorem cacheAlloc_same {s s1 : State} {slot : Nat} (h : cacheAlloc s = some (slot, s1)) :
    s1.maps = s.maps ∧ s1.flagUsemmap = s.flagUsemmap ∧ s1.mmapBuf = s.mmapBuf ∧
      s1.mmapStartOffset = s.mmapStartOffset ∧ s1.mmapEndOffset = s.mmapEndOffset := by
  unfold cacheAlloc at h
  split at h
  · cases h
    exact ⟨rfl, rfl, rfl, rfl, rfl⟩
  · split at h
    · rename_i e _
      cases h
      unfold discard
      cases e.src <;> exact ⟨rfl, rfl, rfl, rfl, rfl⟩
    · cases h

/-- A new window is the next mapping; without one nothing is mapped. -/
theorem updateMmapRange_cases {off : Nat} {s s' : State} {r : Bool}
    (h : updateMmapRange v off s = (r, s')) : s'.used = s.used ∧ s'.released = s.released ∧
      s'.flagUsemmap = s.flagUsemmap ∧
      (match r with
        | true => s'.mmapBuf = s.maps.length ∧ ∃ x, s'.maps = s.maps ++ [x]
        | false => s'.maps = s.maps) := by
  unfold updateMmapRange at h
  dsimp only at h
  split at h
  · cases h
    exact ⟨rfl, rfl, rfl, rfl⟩
  · split at h
    · cases h
      exact ⟨rfl, rfl, rfl, rfl, _, rfl⟩
    · cases h
      exact ⟨rfl, rfl, rfl, rfl⟩

/-- What `mappage_elf` does to the window: a page that cannot be mapped leaves it, a page in the
window is taken from it, and for any other page a new window is made or mmap is given up. -/
theorem mappageElf_cases {pg : Nat} {s s' : State} {r : Option Nat}
    (h : mappageElf v pg s = (r, s')) (hflag : s.flagUsemmap = true) :
    s'.used = s.used ∧ s'.released = s.released ∧
      ((mappable v pg = false ∧ r = none ∧ s' = s) ∨
        (mappable v pg = true ∧ isMappedWithMmap (paddrToOffset v pg) s = true ∧ s' = s) ∨
        (mappable v pg = true ∧ isMappedWithMmap (paddrToOffset v pg) s = false ∧
          ((r = none ∧ s'.flagUsemmap = false ∧ s'.maps = s.maps) ∨
            (s'.flagUsemmap = true ∧ s'.mmapBuf = s.maps.length ∧
              ∃ x, s'.maps = s.maps ++ [x])))) := by
  have hmap : mappable v pg = true ↔ ¬ (paddrToOffset v pg = 0 ∨
      pageIsFractional v (paddrToOffset v pg) = true) ∧
      ¬ (paddrToOffset v ((pg + v.pageSize) % 2 ^ 64) = 0 ∨
        paddrToOffset v ((pg + v.pageSize) % 2 ^ 64) ≠ paddrToOffset v pg + v.pageSize) := by
    unfold mappable
    simp only [decide_eq_true_eq, not_or, ne_eq, Bool.not_eq_true, not_not, and_assoc]
  unfold mappageElf at h
  dsimp only at h
  rw [if_neg (by rw [hflag]; decide)] at h
  split at h
  · rename_i hc
    cases h
    exact ⟨rfl, rfl, .inl ⟨Bool.eq_false_iff.2 fun hm => (hmap.1 hm).1 hc, rfl, rfl⟩⟩
  rename_i hc1
  split at h
  · rename_i hc
    cases h
    exact ⟨rfl, rfl, .inl ⟨Bool.eq_false_iff.2 fun hm => (hmap.1 hm).2 hc, rfl, rfl⟩⟩
  rename_i hc2
  have hm := hmap.2 ⟨hc1, hc2⟩
  cases hw : isMappedWithMmap (paddrToOffset v pg) s with
  | true =>
    rw [hw, if_pos rfl] at h
    dsimp only at h
    rw [if_neg (fun hc => Bool.noConfusion hc)] at h
    split at h
    · cases h
      exact ⟨rfl, rfl, .inr (.inl ⟨hm, rfl, rfl⟩)⟩
    · cases h
      exact ⟨rfl, rfl, .inr (.inl ⟨hm, rfl, rfl⟩)⟩
  | false =>
    rw [hw, if_neg Bool.false_ne_true] at h
    generalize hu : updateMmapRange v (paddrToOffset v pg) s = u at h
    obtain ⟨b, s1⟩ := u
    obtain ⟨hused, hrel, hfl, hnew⟩ := updateMmapRange_cases hu
    dsimp only at h
    cases b with
    | false =>
      rw [if_pos rfl] at h
      cases h
      exact ⟨hused, hrel, .inr (.inr ⟨hm, rfl, .inl ⟨rfl, rfl, hnew⟩⟩)⟩
    | true =>
      rw [if_neg (fun hc => Bool.noConfusion hc)] at h
      split at h
      · cases h
        exact ⟨hused, hrel, .inr (.inr ⟨hm, rfl, .inr ⟨hfl.trans hflag, hnew⟩⟩)⟩
      · cases h
        exact ⟨hused, hrel, .inr (.inr ⟨hm, rfl, .inr ⟨hfl.trans hflag, hnew⟩⟩)⟩

/-! ## One page -/

theorem mapIds_append (l m : List Entry) : mapIds (l ++ m) = mapIds l ++ mapIds m :=
  List.filterMap_append

/-- Taking a slot releases the mapping of the entry thrown out, if it has one. -/
theorem Owned.alloc {s s1 : State} {slot : Nat} (h : Owned s) (ha : cacheAlloc s = some (slot, s1)) :
    s1.released.Nodup ∧ (∀ id ∈ mapIds s1.used, id ∉ s1.released) ∧ (mapIds s1.used).Nodup ∧
      (∀ id ∈ mapIds s1.used, id ∈ mapIds s.used) ∧
      (∀ id ∈ s1.released, id ∈ s.released ∨ ∃ e, victim s = some e ∧ e.src = .map id) ∧
      ∀ id ∈ s1.released, id < s.maps.length := by
  rcases cacheAlloc_cases ha with ⟨-, hu, hr⟩ | ⟨e, hv, hu, hr⟩
  · rw [hu, hr]
    exact ⟨h.once, h.entries, h.distinct, fun _ hid => hid, fun _ hid => .inl hid, h.releasedLt⟩
  · have hd := h.distinct
    have hin := h.entries
    have hlt := h.entriesLt
    rw [hu, mapIds_append] at hd hin hlt
    have hsub : ∀ id ∈ mapIds s1.used, id ∈ mapIds s.used := by
      intro id hid
      rw [hu, mapIds_append]
      exact List.mem_append_left _ hid
    cases hs : e.src with
    | page buf =>
      rw [hs] at hr
      rw [hr]
      exact ⟨h.once, fun id hid => hin id (List.mem_append_left _ hid), (List.nodup_append.1 hd).1,
        hsub, fun _ hid => .inl hid, h.releasedLt⟩
    | map k =>
      rw [hs] at hr
      have hk : mapIds [e] = [k] := by simp [mapIds, hs]
      rw [hk] at hd hin hlt
      have hkin : k ∈ mapIds s1.used ++ [k] := List.mem_append_right _ List.mem_cons_self
      rw [hr]
      refine ⟨List.nodup_cons.2 ⟨hin k hkin, h.once⟩, ?_, (List.nodup_append.1 hd).1, hsub, ?_, ?_⟩
      · intro id hid hmem
        rcases List.mem_cons.1 hmem with rfl | hmem
        · exact (List.nodup_append.1 hd).2.2 id hid id List.mem_cons_self rfl
        · exact hin id (List.mem_append_left _ hid) hmem
      · intro id hid
        rcases List.mem_cons.1 hid with rfl | hid
        · exact .inr ⟨e, hv, hs⟩
        · exact .inl hid
      · intro id hid
        rcases List.mem_cons.1 hid with rfl | hid
        · exact hlt id hkin
        · exact h.releasedLt id hid

/-- What a miss does before it reads: the window it leaves is live, and a page that is mapped comes
from a window that is live and has no entry. -/
theorem Owned.map {s s1 s2 : State} {paddr n slot : Nat} {r : Option Nat} (h : Owned s)
    (hok : stepOk v paddr n s = true)
    (hmiss : cacheSearch (paddr / v.pageSize * v.pageSize) n s = none)
    (ha : cacheAlloc s = some (slot, s1))
    (hm : mappageElf v (paddr / v.pageSize * v.pageSize) s1 = (r, s2)) :
    Owned s2 ∧ ∀ off, r = some off → s2.flagUsemmap = true ∧ s2.mmapBuf ∉ mapIds s2.used := by
  obtain ⟨hmaps, hflag, hbuf, hstart, hend⟩ := cacheAlloc_same ha
  obtain ⟨honce, hent, hdist, hsub, hrel, hrelLt⟩ := h.alloc ha
  have hentLt : ∀ id ∈ mapIds s1.used, id < s1.maps.length := by
    intro id hid
    rw [hmaps]
    exact h.entriesLt id (hsub id hid)
  rw [← hmaps] at hrelLt
  cases hf : s.flagUsemmap with
  | false =>
    have hs : mappageElf v (paddr / v.pageSize * v.pageSize) s1 = (none, s1) := by
      unfold mappageElf
      rw [if_pos (hflag.trans hf)]
    rw [hs] at hm
    cases hm
    have hoff : s1.flagUsemmap ≠ true := by rw [hflag, hf]; decide
    refine ⟨⟨⟨fun hc => absurd hc hoff, honce, hent⟩, hdist, fun hc => absurd hc hoff, hentLt, hrelLt⟩,
      ?_⟩
    intro off hc
    cases hc
  | true =>
    have hf1 : s1.flagUsemmap = true := hflag.trans hf
    -- the window stays live unless the entry thrown out is its own
    have hlive : (∀ e, victim s = some e → e.src ≠ .map s.mmapBuf) →
        s1.mmapBuf ∉ s1.released ∧ s1.mmapBuf < s1.maps.length := by
      intro hv
      rw [hbuf, hmaps]
      refine ⟨?_, h.windowLt hf⟩
      intro hc
      rcases hrel _ hc with hc | ⟨e, he, hs⟩
      · exact h.window hf hc
      · exact hv e he hs
    have hmapped : isMappedWithMmap (paddrToOffset v (paddr / v.pageSize * v.pageSize)) s1 =
        isMappedWithMmap (paddrToOffset v (paddr / v.pageSize * v.pageSize)) s := by
      unfold isMappedWithMmap
      rw [hflag, hstart, hend]
    unfold stepOk at hok
    dsimp only at hok
    rw [hmiss, hf] at hok
    simp only [Option.isSome_none, Bool.not_true, Bool.or_false, Bool.false_or] at hok
    obtain ⟨hu2, hr2, hcase⟩ := mappageElf_cases hm hf1
    rcases hcase with ⟨hm0, rfl, rfl⟩ | ⟨hm1, hw, rfl⟩ | ⟨hm1, hw, hnew⟩
    · rw [hm0, if_neg Bool.false_ne_true] at hok
      obtain ⟨hl, hlt⟩ := hlive fun e he => by
        rw [he] at hok
        exact of_decide_eq_true hok
      refine ⟨⟨⟨fun _ => hl, honce, hent⟩, hdist, fun _ => hlt, hentLt, hrelLt⟩, ?_⟩
      intro off hc
      cases hc
    · rw [hm1, if_pos rfl, ← hmapped, hw] at hok
      have hnone : ∀ e ∈ s.used, e.src ≠ .map s.mmapBuf := by
        simpa using hok
      obtain ⟨hl, hlt⟩ := hlive fun e he => by
        unfold victim at he
        split at he
        · exact hnone e (List.mem_of_getLast? he)
        · cases he
      refine ⟨⟨⟨fun _ => hl, honce, hent⟩, hdist, fun _ => hlt, hentLt, hrelLt⟩, fun _ _ => ⟨hf1, ?_⟩⟩
      intro hc
      obtain ⟨e, he, hs⟩ := mem_mapIds.1 (hsub _ hc)
      rw [hbuf] at hs
      exact hnone e he hs
    · rcases hnew with ⟨rfl, hoff, hmaps2⟩ | ⟨hf2, hbuf2, x, hmaps2⟩
      · refine ⟨⟨⟨fun hc => ?_, ?_, ?_⟩, ?_, fun hc => ?_, ?_, ?_⟩, ?_⟩
        · rw [hoff] at hc
          cases hc
        · rwa [hr2]
        · rwa [hr2, hu2]
        · rwa [hu2]
        · rw [hoff] at hc
          cases hc
        · rwa [hu2, hmaps2]
        · rwa [hr2, hmaps2]
        · intro off hc
          cases hc
      · have hnew : s2.mmapBuf < s2.maps.length := by
          rw [hbuf2, hmaps2, List.length_append]
          exact Nat.lt_succ_self _
        have hfresh : s2.mmapBuf ∉ s2.released := by
          rw [hbuf2, hr2]
          intro hc
          exact Nat.lt_irrefl _ (hrelLt _ hc)
        have hgrow : s1.maps.length ≤ s2.maps.length := by
          rw [hmaps2, List.length_append]
          exact Nat.le_add_right _ _
        refine ⟨⟨⟨fun _ => hfresh, ?_, ?_⟩, ?_, fun _ => hnew, ?_, ?_⟩, ?_⟩
        · rwa [hr2]
        · rwa [hr2, hu2]
        · rwa [hu2]
        · intro id hid
          rw [hu2] at hid
          exact Nat.lt_of_lt_of_le (hentLt id hid) hgrow
        · intro id hid
          rw [hr2] at hid
          exact Nat.lt_of_lt_of_le (hrelLt id hid) hgrow
        · intro off _
          refine ⟨hf2, ?_⟩
          rw [hbuf2, hu2]
          intro hc
          exact Nat.lt_irrefl _ (hentLt _ hc)

theorem mapIds_cons (e : Entry) (l : List Entry) : mapIds (e :: l) = mapIds [e] ++ mapIds l :=
  mapIds_append [e] l

theorem Owned.addPage {s : State} {slot paddr buflen : Nat} {buf : List UInt8} (h : Owned s) :
    Owned (cacheAdd { slot, paddr, buflen, src := .page buf } s) := by
  have hu : mapIds (cacheAdd { slot, paddr, buflen, src := .page buf } s).used = mapIds s.used := rfl
  exact ⟨⟨h.window, h.once, hu ▸ h.entries⟩, hu ▸ h.distinct, h.windowLt, hu ▸ h.entriesLt,
    h.releasedLt⟩

theorem Owned.addMap {s : State} {slot paddr buflen : Nat} (h : Owned s)
    (hf : s.flagUsemmap = true) (hnew : s.mmapBuf ∉ mapIds s.used) :
    Owned (cacheAdd { slot, paddr, buflen, src := .map s.mmapBuf } s) := by
  have hu : mapIds (cacheAdd { slot, paddr, buflen, src := .map s.mmapBuf } s).used =
      s.mmapBuf :: mapIds s.used := rfl
  refine ⟨⟨h.window, h.once, ?_⟩, ?_, h.windowLt, ?_, h.releasedLt⟩
  · rw [hu]
    intro id hid
    rcases List.mem_cons.1 hid with rfl | hid
    · exact h.window hf
    · exact h.entries id hid
  · rw [hu]
    exact List.nodup_cons.2 ⟨hnew, h.distinct⟩
  · rw [hu]
    intro id hid
    rcases List.mem_cons.1 hid with rfl | hid
    · exact h.windowLt hf
    · exact h.entriesLt id hid

theorem Owned.free {s : State} {slot : Nat} (h : Owned s) : Owned (cacheFree slot s) :=
  ⟨⟨h.window, h.once, h.entries⟩, h.distinct, h.windowLt, h.entriesLt, h.releasedLt⟩

/-- **One page** keeps every window owned at most once. -/
theorem Owned.readPage {s : State} {paddr n : Nat} (h : Owned s)
    (hok : stepOk v paddr n s = true) : Owned (readPage v paddr n s).2 := by
  unfold Readmem.readPage
  dsimp only
  cases hs : cacheSearch (paddr / v.pageSize * v.pageSize) n s with
  | some r =>
    obtain ⟨e, s'⟩ := r
    exact h.search hs
  | none =>
    cases ha : cacheAlloc s with
    | none => exact h
    | some r =>
      obtain ⟨slot, s1⟩ := r
      dsimp only
      cases hm : mappageElf v (paddr / v.pageSize * v.pageSize) s1 with
      | mk r s2 =>
        obtain ⟨h2, hmapped⟩ := h.map hok hs ha hm
        cases r with
        | some off =>
          obtain ⟨hf, hnew⟩ := hmapped off rfl
          exact h2.addMap hf hnew
        | none =>
          dsimp only
          cases readpageElf v (paddr / v.pageSize * v.pageSize) with
          | none => exact h2.free
          | some buf => exact h2.addPage

/-! ## Runs -/

/-- A page read of a run: address, bytes and the state before it. -/
structure PageRead where
  paddr : Nat
  n : Nat
  state : State

/-- The page reads of a request. -/
def requestReads (v : Vmcore) (addr size : Nat) (s : State) : List PageRead :=
  let n := readSize v addr size
  { paddr := addr, n, state := s } ::
    match readPage v addr n s with
    | (.ok _, s) =>
      if _h : size - n = 0 then [] else requestReads v ((addr + n) % 2 ^ 64) (size - n) s
    | _ => []
termination_by size
decreasing_by
  have := @readSize_pos v addr size (by omega)
  omega

/-- The page reads of a series of requests. -/
def runReads (v : Vmcore) : List (Nat × Nat) → State → List PageRead
  | [], _ => []
  | (addr, size) :: reqs, s =>
    requestReads v addr size s ++ runReads v reqs (readmem v addr size s).2

/-- The state after them. -/
def runState (v : Vmcore) : List (Nat × Nat) → State → State
  | [], s => s
  | (addr, size) :: reqs, s => runState v reqs (readmem v addr size s).2

/-- In this read the pointer that `mappage_elf` returns, if it does, lies in a mapping. -/
def PageRead.PointerLive (v : Vmcore) (p : PageRead) : Prop :=
  cacheSearch (p.paddr / v.pageSize * v.pageSize) p.n p.state = none →
    ∀ slot s1, cacheAlloc p.state = some (slot, s1) → ∀ off s2,
      mappageElf v (p.paddr / v.pageSize * v.pageSize) s1 = (some off, s2) →
        s2.mmapBuf ∉ s2.released

def PageRead.Ok (v : Vmcore) (p : PageRead) : Prop := stepOk v p.paddr p.n p.state = true

/-- What holds at each read of a run. -/
def PageRead.Safe (v : Vmcore) (p : PageRead) : Prop := Live p.state ∧ p.PointerLive v

theorem Owned.safe {s : State} {paddr n : Nat} (h : Owned s) (hok : stepOk v paddr n s = true) :
    PageRead.Safe v { paddr, n, state := s } := by
  refine ⟨h.toLive, ?_⟩
  intro hmiss slot s1 ha off s2 hm
  obtain ⟨h2, hmapped⟩ := h.map hok hmiss ha hm
  exact h2.window (hmapped off rfl).1

theorem readmem_live (addr size : Nat) {s : State} (h : Owned s)
    (hok : ∀ p ∈ requestReads v addr size s, p.Ok v) :
    (∀ p ∈ requestReads v addr size s, p.Safe v) ∧ Owned (readmem v addr size s).2 := by
  induction size using Nat.strongRecOn generalizing addr s with
  | ind size ih =>
    rw [requestReads] at hok ⊢
    rw [readmem]
    have hfirst := hok _ List.mem_cons_self
    have hsafe := h.safe hfirst
    have h' := h.readPage hfirst
    generalize readPage v addr (readSize v addr size) s = r at *
    obtain ⟨o, s'⟩ := r
    have hone : ∀ p ∈ [({ paddr := addr, n := readSize v addr size, state := s } : PageRead)],
        p.Safe v := by
      intro p hp
      rw [List.mem_singleton.1 hp]
      exact hsafe
    cases o with
    | failed => exact ⟨hone, h'⟩
    | fault => exact ⟨hone, h'⟩
    | ok b =>
      dsimp only at hok ⊢
      by_cases hz : size - readSize v addr size = 0
      · rw [dif_pos hz, dif_pos hz]
        exact ⟨hone, h'⟩
      · rw [dif_neg hz] at hok
        rw [dif_neg hz, dif_neg hz]
        have hn0 := @readSize_pos v addr size (by omega)
        obtain ⟨h1, h2⟩ := ih _ (by omega) ((addr + readSize v addr size) % 2 ^ 64) h'
          fun p hp => hok p (List.mem_cons_of_mem _ hp)
        refine ⟨?_, ?_⟩
        · intro p hp
          rcases List.mem_cons.1 hp with rfl | hp
          · exact hsafe
          · exact h1 p hp
        · generalize readmem v ((addr + readSize v addr size) % 2 ^ 64)
            (size - readSize v addr size) s' = q at *
          obtain ⟨o, s''⟩ := q
          cases o with
          | ok b' => exact h2
          | failed => exact h2
          | fault => exact h2

theorem owned_initialState (v : Vmcore) (sysMmap : List Bool) : Owned (initialState v sysMmap) := by
  unfold initialState
  split
  · have hf : ∀ {p : Prop}, false = true → p := fun h => Bool.noConfusion h
    exact ⟨⟨hf, List.nodup_nil, by simp [mapIds]⟩, List.nodup_nil, hf, by simp [mapIds], by simp⟩
  · rename_i p _ _
    generalize hr : updateMmapRange v (paddrToOffset v p.physStart) { sysMmap } = r
    obtain ⟨b, s⟩ := r
    obtain ⟨hu, hrel, -, hnew⟩ := updateMmapRange_cases hr
    have hids : mapIds s.used = [] := by rw [hu]; rfl
    dsimp only at hrel
    refine ⟨⟨?_, ?_, ?_⟩, ?_, ?_, ?_, ?_⟩
    · intro _
      show s.mmapBuf ∉ s.released
      rw [hrel]
      exact List.not_mem_nil
    · show s.released.Nodup
      rw [hrel]
      exact List.nodup_nil
    · show ∀ id ∈ mapIds s.used, id ∉ s.released
      rw [hids]
      simp
    · show (mapIds s.used).Nodup
      rw [hids]
      exact List.nodup_nil
    · intro hb
      have hb : b = true := hb
      subst hb
      obtain ⟨h1, x, h2⟩ := hnew
      show s.mmapBuf < s.maps.length
      rw [h1, h2]
      exact Nat.zero_lt_one
    · show ∀ id ∈ mapIds s.used, id < s.maps.length
      rw [hids]
      simp
    · show ∀ id ∈ s.released, id < s.maps.length
      rw [hrel]
      simp

theorem run_live (reqs : List (Nat × Nat)) {s : State} (h : Owned s)
    (hok : ∀ p ∈ runReads v reqs s, p.Ok v) :
    (∀ p ∈ runReads v reqs s, p.Safe v) ∧ Live (runState v reqs s) := by
  induction reqs generalizing s with
  | nil => exact ⟨by simp [runReads], h.toLive⟩
  | cons q reqs ih =>
    obtain ⟨addr, size⟩ := q
    obtain ⟨h1, h2⟩ := readmem_live addr size h fun p hp => hok p (List.mem_append_left _ hp)
    obtain ⟨h3, h4⟩ := ih h2 fun p hp => hok p (List.mem_append_right _ hp)
    refine ⟨?_, h4⟩
    intro p hp
    rcases List.mem_append.1 hp with hp | hp
    · exact h1 p hp
    · exact h3 p hp

/-- **No use of an unmapped window**, in every run whose page reads meet `stepOk`. -/
theorem window_live (v : Vmcore) (sysMmap : List Bool) (reqs : List (Nat × Nat))
    (hok : ∀ p ∈ runReads v reqs (initialState v sysMmap), p.Ok v) :
    (∀ p ∈ runReads v reqs (initialState v sysMmap), p.Safe v) ∧
      Live (runState v reqs (initialState v sysMmap)) :=
  run_live reqs (owned_initialState v sysMmap) hok

instance (v : Vmcore) : DecidablePred (PageRead.Ok v) := fun p =>
  inferInstanceAs (Decidable (stepOk v p.paddr p.n p.state = true))

/-- Two requests that are served by the window and its entry. -/
theorem window_live_full : Live (runState fullVmcore [(0x10, 2), (0x1ffe, 4)]
    (initialState fullVmcore [])) :=
  (window_live fullVmcore [] [(0x10, 2), (0x1ffe, 4)] (by decide +kernel)).2

/-- A segment that can be mapped, and one of eight pages that has no data in the file. -/
def mixedVmcore : Vmcore where
  pageSize := 4096
  loads := [{ physStart := 0, physEnd := 0x3000, fileOffset := 0x1000, fileSize := 0x3000 },
    { physStart := 0x10000, physEnd := 0x18000, fileOffset := 0x4000, fileSize := 0 }]
  file := List.replicate 0x4000 0
  pageSize_dvd := dvd_four_kib

/-- A page of the window, eight pages that are read, and another page of the window. -/
def mixedReads : List (Nat × Nat) :=
  (0, 1) :: (List.range 8).map (fun k => (0x10000 + 0x1000 * k, 1)) ++ [(0x1000, 1)]

/-- The eighth read page throws out the entry of the window and so unmaps it; the last page is then
taken from it. -/
theorem window_used_after_unmap :
    let s := runState mixedVmcore (mixedReads.take 9) (initialState mixedVmcore [])
    s.flagUsemmap = true ∧ isMappedWithMmap (paddrToOffset mixedVmcore 0x1000) s = true ∧
      s.mmapBuf ∈ s.released ∧ (readmem mixedVmcore 0x1000 1 s).1 = .fault := by
  decide +kernel

end Readmem
