import Makedumpfile.Lib.Exchange

/-!
# The mem_map table of a discontiguous memory

`get_mm_discontigmem`: the online nodes, or the memory blocks of each node (`separate_mem_map`), give
one `mem_map_data` each; these are sorted by their first page frame, and `info->mem_map_data` gets them
with entries for the gaps between them. How many entries that is, is counted before.

The nodes that `next_online_node` and `next_online_pgdat` find are a list; reads that fail, and a failing
`malloc`, are left out. What `malloc` leaves in the array that is sorted is any content.
-/

namespace Memmap

open Lib

/-- A sum or a product of 64 bits. -/
def u64 (n : Nat) : Nat := n % 2 ^ 64

/-- `NOT_MEMMAP_ADDR`. -/
def notMemmapAddr : Nat := 0

/-- `struct mem_map_data`. -/
structure MemMapData where
  pfnStart : Nat
  pfnEnd : Nat
  memMap : Nat
  deriving Repr, DecidableEq

/-- What is read of a `pglist_data`. -/
structure Node where
  nid : Int
  nodeStartPfn : Nat
  nodeSpannedPages : Nat
  nodeMemMap : Nat
  deriving Repr, DecidableEq

/-- `node_memblk_s`. -/
structure NodeMemblk where
  startPaddr : Nat
  size : Nat
  nid : Int
  deriving Repr, DecidableEq

/-- What the function reads: the online nodes in the order of their numbers, the array `node_memblk`
when it is known, and `vmem_map` when there is that symbol. -/
structure Discontig where
  pageShift : Nat
  sizeofPage : Nat
  maxMapnr : Nat
  xen : Bool := false
  dom0Mapnr : Nat := 0
  nodes : List Node
  nodeMemblk : Option (List NodeMemblk) := none
  vmemMap : Option Nat := none
  ordered : nodes.Pairwise fun a b => a.nid < b.nid

variable (d : Discontig)

/-! ## The entries before the sort -/

/-- The blocks before the first entry of zeros. -/
def memblks : List NodeMemblk :=
  (d.nodeMemblk.getD []).takeWhile fun b => !(b.startPaddr = 0 && b.size = 0 && b.nid = 0)

def getNumMmDiscontigmem : Nat :=
  if (memblks d).length = 0 then d.nodes.length else (memblks d).length

/-- `separate_mm`. -/
def separateMm : Bool := d.nodes.length < getNumMmDiscontigmem d

def nodeMap (n : Node) : Nat :=
  match d.vmemMap with
  | some v => u64 (v + d.sizeofPage * n.nodeStartPfn)
  | none => n.nodeMemMap

/-- `paddr_to_pfn`, with `ARCH_PFN_OFFSET` 0. -/
def paddrToPfn (paddr : Nat) : Nat := paddr >>> d.pageShift

/-- The page frames of a node. -/
def nodeBlock (n : Node) : MemMapData :=
  { pfnStart := n.nodeStartPfn, pfnEnd := u64 (n.nodeStartPfn + n.nodeSpannedPages)
    memMap := nodeMap d n }

/-- The page frames of a memory block of the node. -/
def memblkBlock (n : Node) (b : NodeMemblk) : MemMapData :=
  let pfnStart := paddrToPfn d b.startPaddr
  { pfnStart, pfnEnd := paddrToPfn d (u64 (b.startPaddr + b.size))
    memMap := u64 (nodeMap d n + d.sizeofPage * (pfnStart - n.nodeStartPfn)) }

/-- No entry goes beyond `max_mapnr`. -/
def clamp (e : MemMapData) : MemMapData :=
  if d.maxMapnr < e.pfnEnd then { e with pfnEnd := d.maxMapnr } else e

def separateMemMap (n : Node) : Option (List MemMapData) :=
  ((memblks d).filter fun b => b.nid = n.nid).mapM fun b =>
    if (memblkBlock d n b).pfnStart < n.nodeStartPfn then none
    else some (clamp d (memblkBlock d n b))

/-- The body of the loop over the nodes. -/
def nodeEntries (n : Node) : Option (List MemMapData) :=
  if separateMm d then separateMemMap d n else some [clamp d (nodeBlock d n)]

/-! ## The table -/

/-- The second loop exchanges entries that begin in the wrong order. -/
def sortMemMap (mmd : List MemMapData) : List MemMapData :=
  exchangeSort (fun a b => b.pfnStart < a.pfnStart) mmd

/-- The number of gaps between the entries, or `none` when they overlap. -/
def countGaps : List MemMapData → Option Nat
  | a :: b :: l =>
    if a.pfnEnd > b.pfnStart then none
    else (countGaps (b :: l)).map fun n => if a.pfnEnd = b.pfnStart then n else n + 1
  | _ => some 0

def gapEntry (pfnStart pfnEnd : Nat) : MemMapData :=
  { pfnStart, pfnEnd, memMap := notMemmapAddr }

/-- The calls of `dump_mem_map` in the loop over the entries, and `id_mm` behind it. -/
def fillEntries : Nat → List MemMapData → List (Nat × MemMapData) × Nat
  | idMm, a :: b :: l =>
    if a.pfnEnd ≠ b.pfnStart then
      let r := fillEntries (idMm + 2) (b :: l)
      ((idMm, a) :: (idMm + 1, gapEntry a.pfnEnd b.pfnStart) :: r.1, r.2)
    else
      let r := fillEntries (idMm + 1) (b :: l)
      ((idMm, a) :: r.1, r.2)
  | idMm, [a] => ([(idMm, a)], idMm + 1)
  | idMm, [] => ([], idMm)

/-- `info->num_mem_map`, for which `info->mem_map_data` is allocated, and what is written to it, each
with its place. -/
structure MemMapTable where
  numMemMap : Nat
  writes : List (Nat × MemMapData)
  deriving Repr, DecidableEq

/-- The end of the last gap. -/
def tableEnd : Nat := if d.xen then d.dom0Mapnr else d.maxMapnr

/-- The function from the count on, for the sorted entries. -/
def fillTable : List MemMapData → Option MemMapTable
  | [] => none
  | a :: l => do
    let last := (a :: l).getLast (List.cons_ne_nil a l)
    let gaps ← countGaps (a :: l)
    let numMemMap := (a :: l).length + (if a.pfnStart ≠ 0 then 1 else 0) + gaps +
      (if last.pfnEnd < d.maxMapnr then 1 else 0)
    let first := if a.pfnStart ≠ 0 then [(0, gapEntry 0 a.pfnStart)] else []
    let r := fillEntries first.length (a :: l)
    return {
      numMemMap
      writes := first ++ r.1 ++
        if last.pfnEnd < tableEnd d then [(r.2, gapEntry last.pfnEnd (tableEnd d))] else [] }

/-- `junk` is what `malloc` left in the array of the entries. -/
def getMmDiscontigmem (junk : Nat → MemMapData) : Option MemMapTable := do
  guard (d.nodes ≠ [])
  guard (d.nodes.length ≤ getNumMmDiscontigmem d)
  let entries ← d.nodes.mapM (nodeEntries d)
  let mmd := entries.flatten
  fillTable d (sortMemMap (mmd ++
    (List.range' mmd.length (getNumMmDiscontigmem d - mmd.length)).map junk))

end Memmap
