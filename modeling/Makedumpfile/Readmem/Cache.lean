import Makedumpfile.Lib.DList

/-!
# The page cache

`cache.c` as it is: eight entries with links to one another, a pool of free entries, and the lists
`used` and `pending`, which are only a head and a tail. A pointer to an entry is its number. A walk
along the links of a broken list need not end, so that of `cache_search` has fuel for as many
entries as there are. `Readmem` takes the lists for granted.
-/

namespace PageCache

open Lib

/-- A pointer to an element of `entries`. -/
abbrev Slot := Fin 8

/-- The only callback that readmem sets. -/
inductive Discard
  | unmapCache
  deriving Repr, DecidableEq

/-- `struct cache_entry` -/
structure CacheEntry where
  paddr : UInt64 := 0
  bufptr : Nat := 0
  buflen : UInt64 := 0
  next : Option Slot := none
  prev : Option Slot := none
  discard : Option Discard := none
  deriving Repr, DecidableEq

/-- `struct cache` -/
structure Cache where
  head : Option Slot := none
  tail : Option Slot := none
  deriving Repr, DecidableEq

abbrev Entries := Slot → CacheEntry

/-- The variables of `cache.c`, and the calls of discard callbacks so far. -/
structure Globals where
  entries : Entries := fun _ => {}
  pool : List Slot := List.finRange 8
  avail : Nat := 8
  used : Cache := {}
  pending : Cache := {}
  discarded : List (Slot × Nat × UInt64) := []

/-- What the entries' own buffers are made of. -/
structure Config where
  cachebuf : Nat
  pageSize : Nat
  deriving Repr, DecidableEq

variable (cfg : Config)

/-! ## Entries and lists -/

def setNext (entries : Entries) (i : Slot) (p : Option Slot) : Entries :=
  Function.update entries i { entries i with next := p }

def setPrev (entries : Entries) (i : Slot) (p : Option Slot) : Entries :=
  Function.update entries i { entries i with prev := p }

def addEntry (entries : Entries) (cache : Cache) (entry : Slot) : Entries × Cache :=
  let entries := setNext entries entry cache.head
  let entries := setPrev entries entry none
  let entries := match cache.head with
    | some head => setPrev entries head (some entry)
    | none => entries
  (entries, { head := some entry
              tail := match cache.tail with
                | some tail => some tail
                | none => some entry })

def removeEntry (entries : Entries) (cache : Cache) (entry : Slot) : Entries × Cache :=
  let (entries, cache) := match (entries entry).next with
    | some next => (setPrev entries next (entries entry).prev, cache)
    | none => (entries, { cache with tail := (entries entry).prev })
  match (entries entry).prev with
  | some prev => (setNext entries prev (entries entry).next, cache)
  | none => (entries, { cache with head := (entries entry).next })

/-! ## Searching -/

/-- The test of `cache_search`; `off` is the difference of unsigned numbers. -/
def CacheEntry.hit (e : CacheEntry) (paddr length : UInt64) : Bool :=
  let off := paddr - e.paddr
  off < e.buflen ∧ length ≤ e.buflen - off

/-- The walk along the links; `none` when it does not end. -/
def searchFrom (entries : Entries) (paddr length : UInt64) :
    Nat → Option Slot → Option (Option Slot)
  | _, none => some none
  | 0, some _ => none
  | fuel + 1, some entry =>
    if (entries entry).hit paddr length then some (some entry)
    else searchFrom entries paddr length fuel (entries entry).next

def cacheSearch (paddr length : UInt64) (g : Globals) : Option (Option Nat × Globals) :=
  match searchFrom g.entries paddr length 8 g.used.head with
  | none => none
  | some none => some (none, g)
  | some (some entry) =>
    let ptr := (g.entries entry).bufptr + (paddr - (g.entries entry).paddr).toNat
    if g.used.head = some entry then some (some ptr, g)
    else
      let r := removeEntry g.entries g.used entry
      let r := addEntry r.1 r.2 entry
      some (some ptr, { g with entries := r.1, used := r.2 })

/-! ## Taking and giving back entries -/

/-- The end of `cache_alloc`: the entry gets its own buffer and is pending. -/
def prepareEntry (paddr : UInt64) (entry : Slot) (g : Globals) : Globals :=
  let e := { g.entries entry with
    paddr
    bufptr := cfg.cachebuf + entry * cfg.pageSize
    buflen := UInt64.ofNat cfg.pageSize
    discard := none }
  let r := addEntry (Function.update g.entries entry e) g.pending entry
  { g with entries := r.1, pending := r.2 }

/-- The callback of an entry, if it has one. -/
def callDiscard (entry : Slot) (g : Globals) : Globals :=
  let e := g.entries entry
  match e.discard with
  | some .unmapCache => { g with discarded := g.discarded ++ [(entry, e.bufptr, e.buflen)] }
  | none => g

/-- `none` for an access outside the pool. -/
def cacheAlloc (paddr : UInt64) (g : Globals) : Option (Option Slot × Globals) :=
  if g.avail ≠ 0 then
    match g.pool[g.avail - 1]? with
    | some entry => some (some entry, prepareEntry cfg paddr entry { g with avail := g.avail - 1 })
    | none => none
  else
    match g.used.tail with
    | some entry =>
      let r := removeEntry g.entries g.used entry
      let g := callDiscard entry { g with entries := r.1, used := r.2 }
      some (some entry, prepareEntry cfg paddr entry g)
    | none => some (none, g)

def cacheAdd (entry : Slot) (g : Globals) : Globals :=
  let r := removeEntry g.entries g.pending entry
  let r' := addEntry r.1 g.used entry
  { g with entries := r'.1, pending := r.2, used := r'.2 }

def cacheFree (entry : Slot) (g : Globals) : Option Globals :=
  let r := removeEntry g.entries g.pending entry
  if g.avail < g.pool.length then
    some { g with
      entries := r.1
      pending := r.2
      pool := g.pool.set g.avail entry
      avail := g.avail + 1 }
  else none

/-- `readmem` gives a pending entry the buffer of the mmap window. -/
def mapEntry (entry : Slot) (paddr : UInt64) (bufptr : Nat) (buflen : UInt64) (g : Globals) :
    Globals :=
  let e := { g.entries entry with paddr, bufptr, buflen, discard := some .unmapCache }
  { g with entries := Function.update g.entries entry e }

/-! ## Runs -/

inductive Op
  | search (paddr length : UInt64)
  | alloc (paddr : UInt64)
  | map (entry : Slot) (paddr : UInt64) (bufptr : Nat) (buflen : UInt64)
  | add (entry : Slot)
  | free (entry : Slot)
  deriving Repr, DecidableEq

inductive Reply
  | ptr (p : Option Nat)
  | entry (e : Option Slot)
  | unit
  deriving Repr, DecidableEq

/-- The state with two records of the past: the entries that came from `cache_alloc` and were not
given back, and the entries in the order of their uses, the last use first. A use is a hit or a
`cache_add`. -/
structure Run where
  g : Globals := {}
  cached : List Slot := []
  uses : List Slot := []

/-- readmem gives back only what it got, and once. -/
def Op.Allowed (r : Run) : Op → Prop
  | .search _ _ => True
  | .alloc _ => True
  | .map entry _ _ _ => entry ∈ r.cached
  | .add entry => entry ∈ r.cached
  | .free entry => entry ∈ r.cached

/-- One operation; a hit leaves its entry at the head. -/
def step : Op → Run → Option (Reply × Run)
  | .search paddr length, r =>
    match cacheSearch paddr length r.g with
    | some (none, g) => some (.ptr none, { r with g })
    | some (some p, g) => some (.ptr (some p), { r with g, uses := g.used.head.toList ++ r.uses })
    | none => none
  | .alloc paddr, r =>
    match cacheAlloc cfg paddr r.g with
    | some (e, g) => some (.entry e, { r with g, cached := e.toList ++ r.cached })
    | none => none
  | .map entry paddr bufptr buflen, r =>
    some (.unit, { r with g := mapEntry entry paddr bufptr buflen r.g })
  | .add entry, r =>
    some (.unit, { g := cacheAdd entry r.g
                   cached := r.cached.filter (· ≠ entry)
                   uses := entry :: r.uses })
  | .free entry, r =>
    match cacheFree entry r.g with
    | some g => some (.unit, { r with g, cached := r.cached.filter (· ≠ entry) })
    | none => none

/-- The states that runs of these operations lead to, from the one `cache_init` leaves. -/
inductive Reachable : Run → Prop
  | init : Reachable {}
  | step {r r' : Run} {op : Op} {reply : Reply} :
    Reachable r → op.Allowed r → step cfg op r = some (reply, r') → Reachable r'

end PageCache
