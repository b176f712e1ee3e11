import Makedumpfile.Cycle
import Makedumpfile.Lib.Endian

/-!
# How large a cycle is

`initial` decides how many page frames a cycle has: all of them when the bitmaps are in a file, else
as many as the buffers for the bitmaps have bits. `calculate_cyclic_buffer_size` takes the least of
what both bitmaps need, 4 MiB and 60% of the free memory; with `--cyclic-buffer` the size is given and
cut to the free memory. `open_dump_bitmap` then opens the file of the bitmaps, if there is one.

The factor `0.6` is a `double` in the source; here it is the fraction, rounded down.
-/

namespace PfnCycle

open Lib

/-- The options and what the system reports. `fileBacked`: `--work-dir`, `--reassemble`,
`--mem-usage`, or an input that is itself a kdump-compressed or sadump file. -/
structure PlanInput where
  fileBacked : Bool
  flagCyclic : Bool := true
  maxMapnr : Nat
  freeMemory : Nat
  cyclicBuffer : Int := 0
  numDumpfile : Nat := 1
  numThreads : Nat := 0
  deriving Repr, DecidableEq

/-- The fields of `info` after `initial`. -/
structure Plan where
  bufsizeCyclic : Nat
  pfnCyclic : Nat
  flagCyclic : Bool
  numThreads : Nat
  deriving Repr, DecidableEq

def maximumSize : Nat := 4 * 1024 * 1024
def threadRegion : Nat := 200 * 1024

/-- The limit and the number of threads that there is memory for. The product is one of `int`s. -/
def limitSize (freeMemory numThreads : Nat) : Nat × Nat :=
  let limit := freeMemory * 6 / 10
  if 0 < numThreads then
    if limit ≤ maximumSize then (limit, 0)
    else if (limit - maximumSize) / numThreads < threadRegion then
      let numThreads := (limit - maximumSize) / threadRegion
      (u64sub limit (uint64 (int32 (threadRegion * numThreads))), numThreads)
    else (limit, numThreads)
  else (limit, 0)

/-- The buffer size and the number of threads. -/
def calculateCyclicBufferSize (i : PlanInput) : Option (Nat × Nat) :=
  if i.maxMapnr = 0 then none
  else
    let (limit, numThreads) := limitSize i.freeMemory i.numThreads
    let bitmapSize := i.maxMapnr * 2 / 8
    let bitmapSize := if 1 < i.numDumpfile then bitmapSize / i.numDumpfile else bitmapSize
    some (min (min limit maximumSize) bitmapSize, numThreads)

/-- The buffer size with `--cyclic-buffer`, given in kilobytes. -/
def specifiedBufferSize (i : PlanInput) : Nat :=
  let freeMemory := if 1 < i.numDumpfile then i.freeMemory / i.numDumpfile else i.freeMemory
  min (uint64 (i.cyclicBuffer * 2 ^ 10)) freeMemory

/-- The part of `initial` about cycles. -/
def initialPlan (i : PlanInput) : Option Plan :=
  if i.fileBacked then
    some { bufsizeCyclic := uint64 i.cyclicBuffer, pfnCyclic := i.maxMapnr, flagCyclic := false
           numThreads := i.numThreads }
  else if i.cyclicBuffer = 0 then
    (calculateCyclicBufferSize i).map fun (bufsize, numThreads) =>
      { bufsizeCyclic := bufsize, pfnCyclic := bufsize * 8 % 2 ^ 64
        flagCyclic := if i.maxMapnr * 2 ≤ bufsize * 8 then false else i.flagCyclic
        numThreads }
  else
    some { bufsizeCyclic := specifiedBufferSize i, pfnCyclic := specifiedBufferSize i * 8 % 2 ^ 64
           flagCyclic := i.flagCyclic, numThreads := i.numThreads }

/-- `open_dump_bitmap` opens no file, and the bitmaps are in buffers of `bufsize_cyclic` bytes. -/
def inMemory (i : PlanInput) (p : Plan) : Bool := !i.fileBacked && p.flagCyclic

/-- The loop of `for_each_cycle` from a window on. `none`: still running after `fuel` rounds. -/
def cycleLoop (pfnCyclic limit : Nat) : Nat → PfnCycle → Option (List PfnCycle)
  | 0, _ => none
  | fuel + 1, c =>
    if limit ≤ c.startPfn then some []
    else (cycleLoop pfnCyclic limit fuel (updateCycle pfnCyclic limit c)).map (c :: ·)

/-- `round` divides by `pfn_cyclic`. -/
def runCycles (pfnCyclic : Nat) (flagElfDumpfile : Bool) (start limit fuel : Nat) :
    Option (List PfnCycle) :=
  if pfnCyclic = 0 then none
  else cycleLoop pfnCyclic limit fuel (firstCycle pfnCyclic flagElfDumpfile start limit)

end PfnCycle
