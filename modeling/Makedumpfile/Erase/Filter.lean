import Makedumpfile.Lib.ByteFile

/-!
# Erase requests

The filter list of `erase_info.c`: requests enter it through `update_filter_info` (configuration
file) and `update_filter_info_raw` (eppic), and the pages of the dump take their part of it through
`filter_data_buffer`. The entries are found by their start address only; an entry that leaves the
page is cut at the page end and its rest stays in the list (`extractFilterInfo`).

Addresses are `Nat`: a dumpable page ends below 2^64, so no sum of the source wraps. Memory for a
list node is taken to be there.
-/

namespace Erase

open Lib

/-- `struct filter_info`. `eraseCh` is the byte `memset` makes of the `int`. -/
structure FilterInfo where
  vaddr : Nat
  paddr : Nat
  size : Nat
  eraseInfoIdx : Nat := 0
  sizeIdx : Nat := 0
  eraseCh : UInt8
  nullify : Bool
  deriving Repr, DecidableEq

/-- `struct erase_info`, one for each erase command. -/
structure EraseInfo where
  symbolExpr : String
  numSizes : Nat
  sizes : Option (List Int) := none
  erased : Bool := false
  deriving Repr, DecidableEq

/-- The globals: the list `filter_info`, the table `erase_info` (index 0 of the source is unused,
so entry `i` is at position `i - 1`), and the `erase_info_idx` of each `config_entry`. -/
structure Filter where
  filterInfo : List FilterInfo := []
  eraseInfo : List EraseInfo := []
  entryIdx : Nat → Nat := fun _ => 0

/-! ## Entering requests -/

/-- Insertion sort by `paddr`; an entry of the same `paddr` only grows. `true` when a node was
inserted. -/
def insertFilterInfo (fl : FilterInfo) : List FilterInfo → Bool × List FilterInfo
  | [] => (true, [fl])
  | ptr :: l =>
    if fl.paddr ≤ ptr.paddr then
      if fl.paddr = ptr.paddr then
        (false, { ptr with size := if fl.size > ptr.size then fl.size else ptr.size } :: l)
      else (true, fl :: ptr :: l)
    else
      let r := insertFilterInfo fl l
      (r.1, ptr :: r.2)

/-- The index of the command's node, made at its first use. -/
def addEraseInfoNode (s : Filter) (entry : Nat) (expr : String) : Nat × Filter :=
  let idx := s.entryIdx entry
  if idx ≠ 0 then
    (idx, { s with eraseInfo := s.eraseInfo.modify (idx - 1)
                      fun ei => { ei with numSizes := ei.numSizes + 1 } })
  else
    let idx := s.eraseInfo.length + 1
    (idx, { s with eraseInfo := s.eraseInfo ++ [{ symbolExpr := expr, numSizes := 1 }]
                   entryIdx := Function.update s.entryIdx entry idx })

def getSizeIndex (s : Filter) (idx : Nat) : Nat :=
  if idx ≠ 0 then (s.eraseInfo[idx - 1]?.map (·.numSizes)).getD 0 - 1 else 0

/-- A request: a resolved `config_entry` (number `entry`, with the address and size of its symbol),
or the arguments of the eppic callback. -/
inductive Request
  | symbol (entry : Nat) (expr : String) (symAddr : Nat) (size : Int) (nullify : Bool)
  | raw (symAddr : Nat) (ch : UInt8) (len : Nat)
  deriving Repr, DecidableEq

section
variable (vaddrToPaddr : Nat → Nat)

def updateFilterInfo (entry : Nat) (expr : String) (symAddr : Nat) (size : Int) (nullify : Bool)
    (s : Filter) : Bool × Filter :=
  if symAddr = 0 then (false, s)
  else if size ≤ 0 then (false, s)
  else
    let fl : FilterInfo :=
      { vaddr := symAddr, paddr := vaddrToPaddr symAddr, size := size.toNat
        nullify := nullify, eraseCh := 88 }
    if (insertFilterInfo fl s.filterInfo).1 then
      -- the node is in the list when its indices are filled in
      let (idx, s') := addEraseInfoNode s entry expr
      let fl := { fl with eraseInfoIdx := idx, sizeIdx := getSizeIndex s' idx }
      (true, { s' with filterInfo := (insertFilterInfo fl s.filterInfo).2 })
    else (true, { s with filterInfo := (insertFilterInfo fl s.filterInfo).2 })

def updateFilterInfoRaw (symAddr : Nat) (ch : UInt8) (len : Nat) (s : Filter) : Bool × Filter :=
  let fl : FilterInfo :=
    { vaddr := symAddr, paddr := vaddrToPaddr symAddr, size := len, nullify := false
      eraseCh := ch }
  (true, { s with filterInfo := (insertFilterInfo fl s.filterInfo).2 })

def enter (s : Filter) : Request → Filter
  | .symbol entry expr symAddr size nullify =>
    (updateFilterInfo vaddrToPaddr entry expr symAddr size nullify s).2
  | .raw symAddr ch len => (updateFilterInfoRaw vaddrToPaddr symAddr ch len s).2

/-- The list after all requests. -/
def gatherFilterInfo (reqs : List Request) : Filter := reqs.foldl (enter vaddrToPaddr) {}

end

/-! ## Taking the entries of a page -/

def splitFilterInfo (prev : FilterInfo) (nextPaddr size : Nat) : FilterInfo :=
  { prev with paddr := nextPaddr, size := size }

def updateEraseInfo (fi : FilterInfo) (s : Filter) : Filter :=
  if fi.eraseInfoIdx = 0 then s
  else
    { s with eraseInfo := s.eraseInfo.modify (fi.eraseInfoIdx - 1) fun ei =>
        let sizes := ei.sizes.getD (List.replicate ei.numSizes 0)
        { ei with
          erased := true
          sizes := some (sizes.modify fi.sizeIdx fun n => if fi.nullify then -1 else n + fi.size) } }

/-- The first entry that starts in the page, cut at the page end, and the list without it. -/
def extractNode (startPaddr endPaddr : Nat) :
    List FilterInfo → Option (FilterInfo × List FilterInfo)
  | [] => none
  | fi :: l =>
    if startPaddr ≤ fi.paddr ∧ fi.paddr < endPaddr then
      let size1 := endPaddr - fi.paddr
      if fi.size ≤ size1 then some (fi, l)
      else
        some ({ fi with size := size1 },
          splitFilterInfo fi (fi.paddr + size1) (fi.size - size1) :: l)
    else (extractNode startPaddr endPaddr l).map fun r => (r.1, fi :: r.2)

def extractFilterInfo (startPaddr endPaddr : Nat) (s : Filter) : Option (FilterInfo × Filter) :=
  (extractNode startPaddr endPaddr s.filterInfo).map fun r =>
    (r.1, updateEraseInfo r.1 { s with filterInfo := r.2 })

/-- The `memset` on the page buffer. -/
def FilterInfo.fill (fi : FilterInfo) : UInt8 := if fi.nullify then 0 else fi.eraseCh

def FilterInfo.erase (fi : FilterInfo) (paddr : Nat) (buf : List UInt8) : List UInt8 :=
  ByteFile.pwrite buf (fi.paddr - paddr) (List.replicate fi.size fi.fill)

/-- What a successful search of the list did: the node found in the middle, and its rest. -/
theorem extractNode_cases {a e : Nat} : ∀ {l : List FilterInfo} {fi : FilterInfo}
    {l' : List FilterInfo}, extractNode a e l = some (fi, l') →
    ∃ pre f post, l = pre ++ f :: post ∧ a ≤ f.paddr ∧ f.paddr < e ∧
      fi = { f with size := min f.size (e - f.paddr) } ∧
      l' = pre ++ (if f.size ≤ e - f.paddr then []
        else [splitFilterInfo f e (f.size - (e - f.paddr))]) ++ post
  | [], _, _, h => by simp [extractNode] at h
  | g :: l, fi, l', h => by
    simp only [extractNode] at h
    split at h
    · rename_i hg
      split at h
      · rename_i hs
        cases h
        refine ⟨[], g, l, rfl, hg.1, hg.2, ?_, by simp [hs]⟩
        rw [Nat.min_eq_left hs]
      · rename_i hs
        cases h
        refine ⟨[], g, l, rfl, hg.1, hg.2, ?_, ?_⟩
        · rw [Nat.min_eq_right (by omega)]
        · rw [if_neg hs, show g.paddr + (e - g.paddr) = e by omega]
          rfl
    · obtain ⟨⟨fi', l''⟩, h', he⟩ := Option.map_eq_some_iff.1 h
      cases he
      obtain ⟨pre, f, post, rfl, h1, h2, h3, rfl⟩ := extractNode_cases h'
      exact ⟨g :: pre, f, post, rfl, h1, h2, h3, by simp⟩

theorem extractNode_none {a e : Nat} : ∀ {l : List FilterInfo}, extractNode a e l = none →
    ∀ f ∈ l, ¬ (a ≤ f.paddr ∧ f.paddr < e)
  | [], _ => by simp
  | g :: l, h => by
    simp only [extractNode] at h
    split at h
    · split at h <;> cases h
    · rename_i hg
      intro f hf
      rcases List.mem_cons.1 hf with rfl | hf
      · exact hg
      · exact extractNode_none (Option.map_eq_none_iff.1 h) f hf

@[simp] theorem updateEraseInfo_filterInfo (fi : FilterInfo) (s : Filter) :
    (updateEraseInfo fi s).filterInfo = s.filterInfo := by
  unfold updateEraseInfo
  split <;> rfl

theorem extractFilterInfo_node {a e : Nat} {s s' : Filter} {fi : FilterInfo}
    (h : extractFilterInfo a e s = some (fi, s')) :
    extractNode a e s.filterInfo = some (fi, s'.filterInfo) := by
  obtain ⟨⟨fi', l'⟩, h1, h2⟩ := Option.map_eq_some_iff.1 h
  cases h2
  simpa using h1

/-- Each extraction takes one of the entries that start in the page: the rest starts after it. -/
theorem extractFilterInfo_count {a e : Nat} {s s' : Filter} {fi : FilterInfo}
    (h : extractFilterInfo a e s = some (fi, s')) :
    s'.filterInfo.countP (fun f => a ≤ f.paddr ∧ f.paddr < e) <
      s.filterInfo.countP (fun f => a ≤ f.paddr ∧ f.paddr < e) := by
  obtain ⟨pre, f, post, hl, h1, h2, -, hl'⟩ := extractNode_cases (extractFilterInfo_node h)
  rw [hl, hl']
  split <;> simp [splitFilterInfo, h1, h2]

def filterDataBuffer (buf : List UInt8) (paddr size : Nat) (s : Filter) : List UInt8 × Filter :=
  match _h : extractFilterInfo paddr (paddr + size) s with
  | none => (buf, s)
  | some (fi, s') => filterDataBuffer (fi.erase paddr buf) paddr size s'
termination_by s.filterInfo.countP (fun f => paddr ≤ f.paddr ∧ f.paddr < paddr + size)
decreasing_by exact extractFilterInfo_count _h

/-- One process passes its pages one after the other. -/
def filterPages (pageSize : Nat) : List Nat → Filter → (Nat → List UInt8) →
    Filter × (Nat → List UInt8)
  | [], s, mem => (s, mem)
  | pfn :: pfns, s, mem =>
    let r := filterDataBuffer (mem pfn) (pfn * pageSize) pageSize s
    filterPages pageSize pfns r.2 (Function.update mem pfn r.1)

/-! ## Threads -/

/-- The threads of `filter_data_buffer_parallel`: the shared list, the page buffers, and the pages
whose loop has ended. -/
structure Threads where
  filter : Filter
  buf : Nat → List UInt8
  done : List Nat := []

/-- One round of the loop for page `pfn`: the section under the mutex and the `memset`. -/
def filterRound (pageSize pfn : Nat) (t : Threads) : Option Threads :=
  if pfn ∈ t.done then none
  else
    match extractFilterInfo (pfn * pageSize) (pfn * pageSize + pageSize) t.filter with
    | none => some { t with done := pfn :: t.done }
    | some (fi, s') =>
      some { t with filter := s'
                    buf := Function.update t.buf pfn (fi.erase (pfn * pageSize) (t.buf pfn)) }

/-- The rounds in the order of the schedule. -/
def runThreads (pageSize : Nat) : List Nat → Threads → Option Threads
  | [], t => some t
  | pfn :: sched, t => (filterRound pageSize pfn t).bind (runThreads pageSize sched)

end Erase
