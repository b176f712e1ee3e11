import Makedumpfile.Lib.Endian
import Makedumpfile.Readmem.Vmcore

/-!
# readmem

`readmem(PADDR, …)` with the page cache of `cache.c` and the mmap window. A page that misses the
cache takes a slot, from the pool or from the least recently used entry; when the page can be mapped
the slot becomes an entry for the *whole* window, else for the page read by `readpage_elf`. Throwing
out a window's entry unmaps the window.

A VADDR request is a series of PADDR requests, those of the page table walk included. What `mmap(2)`
answers is data (`State.sysMmap`).
-/

namespace Readmem

open Lib

/-- Where the bytes of a cache entry are: a page buffer, or a mapping of the file. -/
inductive Src
  | page (buf : List UInt8)
  | map (id : Nat)
  deriving Repr, DecidableEq

/-- `struct cache_entry`. An entry has the discard callback when it is a mapping. -/
structure Entry where
  slot : Nat
  paddr : Nat
  buflen : Nat
  src : Src
  deriving Repr, DecidableEq

/-- The globals. `used` is the list from its head; `maps` has the file offset of every mapping
made, `released` those unmapped; the window is `info->mmap_*`, mapping number `mmapBuf`. -/
structure State where
  pool : List Nat := [7, 6, 5, 4, 3, 2, 1, 0]
  used : List Entry := []
  flagUsemmap : Bool := false
  mmapBuf : Nat := 0
  mmapStartOffset : Nat := 0
  mmapEndOffset : Nat := 0
  maps : List Nat := []
  released : List Nat := []
  sysMmap : List Bool := []
  deriving Repr, DecidableEq

/-! ## The cache -/

/-- The entry has `length` bytes from `paddr` on. -/
def Entry.holds (e : Entry) (paddr length : Nat) : Bool :=
  u64sub paddr e.paddr < e.buflen ∧ length ≤ e.buflen - u64sub paddr e.paddr

/-- The first entry that has the bytes; it moves to the head of the list. -/
def cacheSearch (paddr length : Nat) (s : State) : Option (Entry × State) :=
  (s.used.find? (·.holds paddr length)).map fun e => (e, { s with used := e :: s.used.erase e })

/-- `unmap_cache`, the discard callback of a mapped entry. -/
def discard (e : Entry) (s : State) : State :=
  match e.src with
  | .page _ => s
  | .map id => { s with released := id :: s.released }

/-- A slot of the pool, or of the last entry of the list. -/
def cacheAlloc (s : State) : Option (Nat × State) :=
  match s.pool with
  | slot :: pool => some (slot, { s with pool })
  | [] =>
    match s.used.getLast? with
    | some e => some (e.slot, discard e { s with used := s.used.dropLast })
    | none => none

def cacheAdd (e : Entry) (s : State) : State := { s with used := e :: s.used }

def cacheFree (slot : Nat) (s : State) : State := { s with pool := slot :: s.pool }

/-! ## The mmap window -/

def mapRegion : Nat := 4096 * 1024

variable (v : Vmcore)

/-- `update_mmap_range`: a new window from `offset` on, to the end of its segment in memory. -/
def updateMmapRange (offset : Nat) (s : State) : Bool × State :=
  let ptLoadEnd := offsetToPtLoadEnd v offset
  let startOffset := (offset + (v.pageSize - 1)) / v.pageSize * v.pageSize
  let endOffset := min (maxFileOffset v) (ptLoadEnd / v.pageSize * v.pageSize)
  if ptLoadEnd = 0 ∨ endOffset ≤ startOffset then (false, s)
  else
    let mapSize := min (endOffset - startOffset) mapRegion
    let s' := { s with sysMmap := s.sysMmap.tail }
    if s.sysMmap.headD true then
      (true, { s' with mmapBuf := s.maps.length, maps := s.maps ++ [startOffset]
                       mmapStartOffset := startOffset
                       mmapEndOffset := startOffset + mapSize })
    else (false, s')

def isMappedWithMmap (offset : Nat) (s : State) : Bool :=
  s.flagUsemmap ∧ s.mmapStartOffset ≤ offset ∧ offset < s.mmapEndOffset

/-- The distance of the page from the start of the window, when the page can be mapped. -/
def mappageElf (paddr : Nat) (s : State) : Option Nat × State :=
  if s.flagUsemmap = false then (none, s)
  else
    let offset := paddrToOffset v paddr
    if offset = 0 ∨ pageIsFractional v offset = true then (none, s)
    else
      let offset2 := paddrToOffset v ((paddr + v.pageSize) % 2 ^ 64)
      if offset2 = 0 ∨ offset2 ≠ offset + v.pageSize then (none, s)
      else
        let r := if isMappedWithMmap offset s then (true, s) else updateMmapRange v offset s
        let s := r.2
        if r.1 = false then (none, { s with flagUsemmap := false })
        else if offset < s.mmapStartOffset ∨ s.mmapEndOffset < offset + v.pageSize then (none, s)
        else (some (offset - s.mmapStartOffset), s)

/-! ## Reading -/

/-- What a read gives: bytes, FALSE, or an access to memory that is not mapped. -/
inductive Outcome
  | ok (b : List UInt8)
  | failed
  | fault
  deriving Repr, DecidableEq

/-- The `memcpy` of `n` bytes from offset `off` of an entry's buffer. -/
def copyFrom (s : State) (e : Entry) (off n : Nat) : Outcome :=
  match e.src with
  | .page buf => .ok (ByteFile.pread buf off n)
  | .map id =>
    if id ∈ s.released then .fault
    else
      let b := v.file.pread (s.maps.getD id 0 + off) n
      if b.length = n then .ok b else .fault

/-- One page of `readmem`. -/
def readPage (paddr readSize : Nat) (s : State) : Outcome × State :=
  let pgaddr := paddr / v.pageSize * v.pageSize
  let pgoff := paddr % v.pageSize
  match cacheSearch pgaddr readSize s with
  | some (e, s) => (copyFrom v s e (u64sub pgaddr e.paddr + pgoff) readSize, s)
  | none =>
    match cacheAlloc s with
    | none => (.failed, s)
    | some (slot, s) =>
      match mappageElf v pgaddr s with
      | (some mapoff, s) =>
        let e : Entry := { slot, paddr := u64sub pgaddr mapoff
                           buflen := s.mmapEndOffset - s.mmapStartOffset, src := .map s.mmapBuf }
        let s := cacheAdd e s
        (copyFrom v s e (mapoff + pgoff) readSize, s)
      | (none, s) =>
        match readpageElf v pgaddr with
        | none => (.failed, cacheFree slot s)
        | some buf =>
          let e : Entry := { slot, paddr := pgaddr, buflen := v.pageSize, src := .page buf }
          let s := cacheAdd e s
          (copyFrom v s e pgoff readSize, s)

/-- The bytes in the page of `addr` that a request of `size` bytes takes. -/
def readSize (addr size : Nat) : Nat := min (v.pageSize - addr % v.pageSize) size

theorem readSize_pos {addr size : Nat} (h : size ≠ 0) : 0 < readSize v addr size := by
  have := Nat.mod_lt addr v.pageSize_pos
  unfold readSize
  omega

def readmem (addr size : Nat) (s : State) : Outcome × State :=
  let n := readSize v addr size
  match readPage v addr n s with
  | (.ok b, s) =>
    if _h : size - n = 0 then (.ok b, s)
    else
      match readmem ((addr + n) % 2 ^ 64) (size - n) s with
      | (.ok b', s) => (.ok (b ++ b'), s)
      | r => r
  | r => r
termination_by size
decreasing_by
  have := @readSize_pos v addr size (by omega)
  omega

/-- `initialize_mmap` in `initial()`: a window on the first segment. -/
def initialState (sysMmap : List Bool) : State :=
  match v.loads with
  | [] => { sysMmap }
  | p :: _ =>
    let r := updateMmapRange v (paddrToOffset v p.physStart) { sysMmap }
    { r.2 with flagUsemmap := r.1 }

end Readmem
