import Makedumpfile.Bitmap.File
import Makedumpfile.Cycle

/-!
# The pages that are not on a memory hole

The 1st bitmap has the bit of every page of a `PT_LOAD`. With a bitmap file it is built as a whole
(`create_1st_bitmap_file`), in cyclic mode one window at a time (`create_1st_bitmap_buffer`, by
`create_bitmap_from_memhole`, which also starts the 2nd bitmap of a window).
-/

namespace Bitmap

open Lib ByteFile

/-- The physical addresses `[phys_start, phys_end)` of a `PT_LOAD`. -/
structure PtLoad where
  physStart : Nat
  physEnd : Nat
  deriving Repr, DecidableEq

/-- The part of `struct DumpInfo` the builders read. -/
structure Info where
  pageShift : Nat
  maxMapnr : Nat
  bufsizeCyclic : Nat
  ptLoads : List PtLoad
  deriving Repr, DecidableEq

variable (i : Info)

def Info.pageSize : Nat := 2 ^ i.pageShift

/-- The frame of an address; `ARCH_PFN_OFFSET` is 0. -/
def Info.paddrToPfn (paddr : Nat) : Nat := paddr / i.pageSize

def Info.lenBitmap : Nat := divideup (divideup i.maxMapnr 8) i.pageSize * i.pageSize * 2

/-! ## In a file -/

/-- The frames the loop over a `PT_LOAD` sets: the end is clamped before the last page, which may
have less than `page_size` data in it, is added. -/
def Info.fileFrames (l : PtLoad) : List Nat :=
  let pfnStart := i.paddrToPfn l.physStart
  let pfnEnd := i.paddrToPfn l.physEnd
  if pfnStart > i.maxMapnr then []
  else
    let pfnEnd := min pfnEnd i.maxMapnr
    let pfnEnd := if l.physEnd % i.pageSize ≠ 0 then pfnEnd + 1 else pfnEnd
    List.range' pfnStart (pfnEnd - pfnStart)

/-- `create_1st_bitmap_file` on the bitmap file, with `pfn_memhole`. What `set_bit_on_1st_bitmap`
returns is not looked at. -/
def create1stBitmapFile (b : FileBitmap) : Bool × FileBitmap × Int :=
  let b := { b with file := pwrite b.file b.offset (List.replicate (i.lenBitmap / 2) 0) }
  let pfns := i.ptLoads.flatMap i.fileFrames
  let b := pfns.foldl (fun b pfn => (setBitmapFile b pfn true).2) b
  let r := syncBitmap b
  (r.1, r.2, i.maxMapnr - pfns.length)

/-! ## In a window -/

def isCyclicRegion (pfn : Nat) (c : PfnCycle) : Bool := c.startPfn ≤ pfn && pfn < c.endPfn

def setBitmapBuffer (buf : List UInt8) (pfn : Nat) (val : Bool) (c : PfnCycle) : Bool × List UInt8 :=
  if isCyclicRegion pfn c then (true, setBit buf (pfn - c.startPfn) val) else (false, buf)

def isDumpableBuffer (buf : List UInt8) (pfn : Nat) (c : PfnCycle) : Bool :=
  isCyclicRegion pfn c && isOn buf (pfn - c.startPfn)

/-- The macro `roundup`. -/
def roundup (x y : Nat) : Nat := (x + (y - 1)) / y * y

/-- The buffer of a window and `pfn_memhole`. -/
structure Window where
  buf : List UInt8
  pfnMemhole : Int
  deriving Repr, DecidableEq

/-- `set_bit(pfn, cycle)` and the count. -/
def setBitCount (countMemhole : Bool) (c : PfnCycle) (pfn : Nat) (w : Window) : Bool × Window :=
  match setBitmapBuffer w.buf pfn true c with
  | (false, buf) => (false, { w with buf })
  | (true, buf) => (true, ⟨buf, if countMemhole then w.pfnMemhole - 1 else w.pfnMemhole⟩)

/-- The body of the loop over the `PT_LOAD`s: the edges bit by bit, whole bytes with `memset`. -/
def memholeLoad (countMemhole : Bool) (c : PfnCycle) (l : PtLoad) (w : Window) : Bool × Window :=
  let pfnStart := max (i.paddrToPfn l.physStart) c.startPfn
  let pfnEnd := min (i.paddrToPfn l.physEnd) c.endPfn
  if pfnStart ≥ pfnEnd then (true, w)
  else
    let pfnStartRoundup := min (roundup pfnStart 8) pfnEnd
    let pfnEndRound := max (PfnCycle.round pfnEnd 8) pfnStart
    match tryEach (setBitCount countMemhole c)
        (List.range' pfnStart (pfnStartRoundup - pfnStart)) w with
    | (false, w) => (false, w)
    | (true, w) =>
      let startByte := (pfnStartRoundup - c.startPfn) / 8
      let endByte := (pfnEndRound - c.startPfn) / 8
      let w :=
        if startByte < endByte then
          { buf := pwrite w.buf startByte (List.replicate (endByte - startByte) 0xff)
            pfnMemhole := if countMemhole then w.pfnMemhole - (endByte - startByte : Nat) * 8
              else w.pfnMemhole }
        else w
      tryEach (setBitCount countMemhole c) (List.range' pfnEndRound (pfnEnd - pfnEndRound)) w

def createBitmapFromMemhole (countMemhole : Bool) (c : PfnCycle) (pfnMemhole : Int) : Bool × Window :=
  tryEach (memholeLoad i countMemhole c) i.ptLoads ⟨List.replicate i.bufsizeCyclic 0, pfnMemhole⟩

def create1stBitmapBuffer (c : PfnCycle) (pfnMemhole : Int) : Bool × Window :=
  createBitmapFromMemhole i true c pfnMemhole

/-- The windows of `for_each_cycle(0, info->max_mapnr, &cycle)`. -/
def Info.cycles : List PfnCycle := PfnCycle.forEachCycle (i.bufsizeCyclic * 8) false 0 i.maxMapnr

end Bitmap
