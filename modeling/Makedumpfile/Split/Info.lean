import Makedumpfile.Kdump.Read

/-!
# The parts of a split dump

`store_splitting_info` reads from each part which page frames it has and where its erase information
is, and `sort_splitting_info` puts the parts in the order of their frames. `reassemble_kdump_pages`
then copies the erase information of one part after the other.

The page size, `max_mapnr` and the dump level, which `store_splitting_info` takes from the first part,
are left out.
-/

namespace Split

open Lib ByteFile Kdump

/-- The files that can be opened. -/
abbrev Files := String → Option ByteFile

/-- `struct splitting_info`. -/
structure SplittingInfo where
  nameDumpfile : String
  startPfn : Nat
  endPfn : Nat
  offsetEraseinfo : Nat
  sizeEraseinfo : Nat
  deriving Repr, DecidableEq

variable (be : Bool) (files : Files)

def readDiskDumpHeader (name : String) : Option (List UInt8) := do
  let f ← files name
  let dh ← readAt f 0 sizeofDiskDumpHeader
  guard (pread dh 0 8 = kdumpSignature)
  return dh

def headerVersion (dh : List UInt8) : Int := i32 (hostNat be (pread dh 8 4))

def blockSize (dh : List UInt8) : Int := i32 (hostNat be (pread dh 428 4))

def readKdumpSubHeader (name : String) : Option (List UInt8) := do
  let dh ← readDiskDumpHeader files name
  let f ← files name
  -- `lseek` fails at a negative offset
  guard (0 ≤ blockSize be dh)
  readAt f (blockSize be dh).toNat sizeofKdumpSubHeader

/-- A power of two. -/
def isPageSize (n : Int) : Bool := n > 0 ∧ n.toNat &&& (n.toNat - 1) = 0

/-- The body of the loop; `dh` is the header of the first part. -/
def storePart (dh : List UInt8) (name : String) : Option SplittingInfo := do
  let tmpDh ← readDiskDumpHeader files name
  guard (tmpDh = dh)
  let kh ← readKdumpSubHeader be files name
  let wide := decide (6 ≤ headerVersion be dh)
  return {
    nameDumpfile := name
    startPfn := hostNat be (if wide then pread kh 80 8 else pread kh 16 8)
    endPfn := hostNat be (if wide then pread kh 88 8 else pread kh 24 8)
    offsetEraseinfo := hostNat be (pread kh 64 8)
    sizeEraseinfo := hostNat be (pread kh 72 8) }

def storeSplittingInfo : List String → Option (List SplittingInfo)
  | [] => some []
  | name :: names => do
    let dh ← readDiskDumpHeader files name
    guard (isPageSize (blockSize be dh))
    (name :: names).mapM (storePart be files dh)

/-- One exchange. The name and the page frames change places. -/
def exchangeParts (l : List SplittingInfo) (i j : Nat) : List SplittingInfo :=
  match l[i]?, l[j]? with
  | some a, some b =>
    if a.startPfn < b.startPfn then l
    else
      (l.set i { a with startPfn := b.startPfn, endPfn := b.endPfn
                        nameDumpfile := b.nameDumpfile }).modify j fun c =>
        { c with startPfn := a.startPfn, endPfn := a.endPfn, nameDumpfile := a.nameDumpfile }
  | _, _ => l

/-- The inner loop, which starts at `i`. -/
def sortRow (l : List SplittingInfo) (i : Nat) : List SplittingInfo :=
  (List.range' i (l.length - i)).foldl (fun l j => exchangeParts l i j) l

def sortSplittingInfo (l : List SplittingInfo) : List SplittingInfo :=
  (List.range (l.length - 1)).foldl sortRow l

/-- The erase information at the place in the file that the record has for it. -/
def readEraseinfo (p : SplittingInfo) : Option (List UInt8) :=
  if p.sizeEraseinfo = 0 then some []
  else (files p.nameDumpfile).bind fun f => readAt f p.offsetEraseinfo p.sizeEraseinfo

/-- What the loop of `reassemble_kdump_pages` over the parts writes as erase information. -/
def copyEraseinfo (l : List SplittingInfo) : Option (List UInt8) :=
  (l.mapM (readEraseinfo files)).map List.flatten

end Split
