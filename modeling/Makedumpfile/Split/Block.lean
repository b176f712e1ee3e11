import Makedumpfile.Cycle
import Makedumpfile.Lib.Bitmap
import Makedumpfile.Lib.Endian

/-!
# The split blocks

With `--split` the memory is divided into blocks of `page_per_splitblock` pages, and a table has the
number of dumpable pages of each block, in little-endian entries of `entry_size` bytes.
`create_dump_bitmap` prepares the table anew each time it is called, that is, once and again after
every write that ran out of space; `get_num_dumpable_cyclic_withsplit` fills it, and
`setup_splitting` reads from it where each part ends.

Failures of `calloc` are left out, and there are fewer than `2 ^ 31` blocks where `setup_splitting`
counts them.
-/

namespace Split

open Lib ByteFile

/-- What the preparation reads from `info`. -/
structure BlockInfo where
  pageSize : Nat
  maxMapnr : Nat
  pageSize_pos : 0 < pageSize

/-- `struct SplitBlock` without its table. -/
structure SplitBlock where
  num : Nat
  pagePerSplitblock : Int
  entrySize : Nat
  deriving Repr, DecidableEq

def defaultSplitblockSize : Int := 2 ^ 30

/-! ## The width of an entry -/

/-- The loop doubles an `int`. `none`: still running after `fuel` rounds. -/
def countLoop (pagePerSplitblock : Int) : Nat → Int → Nat → Option Nat
  | 0, _, _ => none
  | fuel + 1, entryNum, count =>
    if entryNum < pagePerSplitblock then
      countLoop pagePerSplitblock fuel (int32 (entryNum * 2)) (count + 1)
    else some count

def calculateEntrySize (pagePerSplitblock : Int) (fuel : Nat) : Option Nat :=
  (countLoop pagePerSplitblock fuel 1 1).map fun count =>
    if count % 8 ≠ 0 then count / 8 + 1 else count / 8

/-- The rest of `prepare_splitblock_table`. A block of no page would be a division by zero. -/
def newSplitBlock (maxMapnr : Nat) (pagePerSplitblock : Int) (fuel : Nat) : Option SplitBlock :=
  if pagePerSplitblock = 0 then none
  else
    (calculateEntrySize pagePerSplitblock fuel).map fun entrySize =>
      { num := (maxMapnr + uint64 (pagePerSplitblock - 1)) % 2 ^ 64 / uint64 pagePerSplitblock
        pagePerSplitblock, entrySize }

/-! ## The preparation and its repetitions -/

/-- A call that has returned: `info->splitblock_size` after it, and the blocks unless it failed. -/
structure Prepared where
  splitblockSize : Int
  block : Option SplitBlock
  deriving Repr, DecidableEq

/-- The size is left converted also when it is refused. -/
def checkSplitblockSize (c : BlockInfo) (splitblockSize : Int) : Bool × Int :=
  if splitblockSize ≠ 0 then
    let size := int64 (splitblockSize * 2 ^ 10)
    (decide (size ≠ 0) && decide (size.tmod c.pageSize = 0), size)
  else (true, defaultSplitblockSize)

/-- `none`: the call does not return. -/
def prepareSplitblockTable (c : BlockInfo) (fuel : Nat) (splitblockSize : Int) : Option Prepared :=
  match checkSplitblockSize c splitblockSize with
  | (false, size) => some { splitblockSize := size, block := none }
  | (true, size) =>
    (newSplitBlock c.maxMapnr (size.tdiv c.pageSize) fuel).map fun b =>
      { splitblockSize := size, block := some b }

/-- The calls of a `create_dumpfile` that retries `n` times: each starts from the size that the one
before left, and after one that fails there is none. -/
def prepareCalls (c : BlockInfo) (fuel : Nat) : Nat → Int → List (Option Prepared)
  | 0, size => [prepareSplitblockTable c fuel size]
  | n + 1, size =>
    prepareSplitblockTable c fuel size ::
      match prepareSplitblockTable c fuel size with
      | some ⟨size', some _⟩ => prepareCalls c fuel n size'
      | _ => []

/-! ## The table -/

/-- The loop over the bytes of an entry. -/
def writeIntoSplitblockTable (entrySize : Nat) (table : List UInt8) (pos value : Nat) :
    List UInt8 :=
  pwrite table pos (leBytes entrySize value)

def readFromSplitblockTable (entrySize : Nat) (table : List UInt8) (pos : Nat) : Nat :=
  leNat (pread table pos entrySize)

/-- The variables of `get_num_dumpable_cyclic_withsplit`. -/
structure CountState where
  numDumpable : Nat
  dumpablePfnNum : Nat
  pfnNum : Nat
  pos : Int
  table : List UInt8
  deriving Repr, DecidableEq

/-- The table comes from `calloc`. -/
def countInit (b : SplitBlock) : CountState :=
  { numDumpable := 0, dumpablePfnNum := 0, pfnNum := 0, pos := 0
    table := List.replicate (b.entrySize * b.num) 0 }

/-- The body of the inner loop. `none`: a write outside the table. -/
def countStep (b : SplitBlock) (dumpable : Nat → Bool) (s : CountState) (pfn : Nat) :
    Option CountState :=
  let numDumpable := if dumpable pfn then s.numDumpable + 1 else s.numDumpable
  let dumpablePfnNum := if dumpable pfn then s.dumpablePfnNum + 1 else s.dumpablePfnNum
  if uint64 b.pagePerSplitblock ≤ s.pfnNum + 1 then
    if 0 ≤ s.pos ∧ s.pos.toNat + b.entrySize ≤ s.table.length then
      some {
        numDumpable, dumpablePfnNum := 0, pfnNum := 0
        pos := int32 (s.pos + b.entrySize)
        table := writeIntoSplitblockTable b.entrySize s.table s.pos.toNat dumpablePfnNum }
    else none
  else some { s with numDumpable, dumpablePfnNum, pfnNum := s.pfnNum + 1 }

/-- The number of dumpable pages, with the table. -/
def getNumDumpableCyclicWithsplit (b : SplitBlock) (pfnCyclic : Nat) (flagElfDumpfile : Bool)
    (maxMapnr : Nat) (dumpable : Nat → Bool) : Option (Nat × List UInt8) :=
  ((PfnCycle.forEachCycle pfnCyclic flagElfDumpfile 0 maxMapnr).foldlM
    (fun s (cycle : PfnCycle) => (cycle.pages 0).foldlM (countStep b dumpable) s)
    (countInit b)).map fun s => (s.numDumpable, s.table)

/-! ## The parts -/

/-- The loop over the table: the block at which a part ends. -/
def endBlock (b : SplitBlock) (table : List UInt8) (cur : Nat) (pfnNeeded : Int) : Nat :=
  if cur < b.num ∧ 0 < pfnNeeded then
    endBlock b table (cur + 1)
      (pfnNeeded - readFromSplitblockTable b.entrySize table (cur * b.entrySize))
  else cur
termination_by b.num - cur

/-- The end of a part and the block reached. -/
def calculateEndPfnBySplitblock (b : SplitBlock) (table : List UInt8)
    (maxMapnr numDumpable numDumpfile startPfn cur : Nat) : Nat × Nat :=
  if maxMapnr ≤ startPfn then (maxMapnr, cur)
  else
    let cur := endBlock b table cur (numDumpable / numDumpfile : Nat)
    (min (uint64 (cur * b.pagePerSplitblock)) maxMapnr, cur)

/-- The parts but the last, with the end of the last of them. -/
def splitParts (b : SplitBlock) (table : List UInt8) (maxMapnr numDumpable numDumpfile : Nat) :
    Nat → Nat → Nat → List (Nat × Nat) × Nat
  | 0, endPfn, _ => ([], endPfn)
  | n + 1, startPfn, cur =>
    let (endPfn, cur) :=
      calculateEndPfnBySplitblock b table maxMapnr numDumpable numDumpfile startPfn cur
    let (parts, last) := splitParts b table maxMapnr numDumpable numDumpfile n endPfn cur
    ((startPfn, endPfn) :: parts, last)

/-- `[start_pfn, end_pfn)` of each part. -/
def setupSplitting (b : SplitBlock) (table : List UInt8) (maxMapnr numDumpable numDumpfile : Nat) :
    Option (List (Nat × Nat)) :=
  if numDumpfile ≤ 1 then none
  else
    let (parts, last) := splitParts b table maxMapnr numDumpable numDumpfile (numDumpfile - 1) 0 0
    some (parts ++ [(last, maxMapnr)])

/-- The parts for a bitmap, with the blocks of one preparation. -/
def partsOf (c : BlockInfo) (p : Prepared) (pfnCyclic : Nat) (flagElfDumpfile : Bool)
    (dumpable : Nat → Bool) (numDumpfile : Nat) : Option (List (Nat × Nat)) := do
  let b ← p.block
  let (numDumpable, table) ←
    getNumDumpableCyclicWithsplit b pfnCyclic flagElfDumpfile c.maxMapnr dumpable
  setupSplitting b table c.maxMapnr numDumpable numDumpfile

end Split
