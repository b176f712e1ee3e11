import Makedumpfile.Bitmap.Exclude
import Mathlib.Data.UInt

/-!
# The page cache of the exclusion loop

`__exclude_unnecessary_pages` as it reads the `struct page`s: `mem_map` is an address that is moved
along with `pfn`, and the pages are read into a buffer of `PGMM_CACHED` of them. `Exclude` has the
`struct page` of a frame at hand instead. The arithmetic is that of 64 bits, and an access outside of
the buffer ends a round (`Halt.outside`).
-/

namespace Bitmap

open Lib ByteFile

/-- What a call works on. `memory` is the kernel's memory and `readOk` tells what of it can be read;
`ptomXen` is `none` unless it is the memory of a Xen guest; `junk` is what `malloc` leaves. -/
structure PageScan where
  image : Image
  level : Nat
  flagCyclic : Bool := true
  ptomXen : Option (Nat → Option Nat) := none
  /-- `SIZE(page)` -/
  size : Nat
  memory : UInt64 → UInt8
  readOk : UInt64 → Nat → Bool := fun _ _ => true
  junk : Nat → UInt8
  memMap : UInt64
  pfnStart : UInt64
  pfnEnd : UInt64
  cycle : PfnCycle

/-- The variables of the loop. -/
structure PageVars where
  pfn : UInt64
  memMap : UInt64
  pfnReadStart : UInt64
  pfnReadEnd : UInt64
  pageCache : List UInt8
  scan : Scan
  deriving Repr, DecidableEq

inductive Halt
  | failed
  | outside
  deriving Repr, DecidableEq

namespace PageScan

variable (a : PageScan)

/-- `SIZE(page)` in a product with a number of pages. -/
def sizeOf : UInt64 := UInt64.ofNat a.size

def bytesAt (addr : UInt64) (n : Nat) : List UInt8 :=
  (List.range n).map fun i => a.memory (addr + UInt64.ofNat i)

def readmem (addr : UInt64) (n : Nat) : Except Halt (List UInt8) :=
  if a.readOk addr n then .ok (a.bytesAt addr n) else .error .failed

/-- Bytes that are put into the buffer. -/
def store (cache : List UInt8) (off : Nat) (b : List UInt8) : Except Halt (List UInt8) :=
  if off + b.length ≤ cache.length then .ok (pwrite cache off b) else .error .outside

/-- The `struct page` at an index of the buffer. -/
def load (cache : List UInt8) (index : Nat) : Except Halt (List UInt8) :=
  if index * a.size + a.size ≤ cache.length then .ok (pread cache (index * a.size) a.size)
  else .error .outside

def indexPg (pfn : UInt64) : Nat := (pfn % 512).toNat

def roundup64 (x y : UInt64) : UInt64 := (x + (y - 1)) / y * y

/-- `pfn_mm`, the number of pages to read. -/
def pfnMm (pfn : UInt64) : Nat :=
  if roundup64 (pfn + 1) 512 < a.pfnEnd then pgmmCached - indexPg pfn else (a.pfnEnd - pfn).toNat

/-- The page is not in the target region or in a memory hole; `none` when that cannot be told. -/
def skips (pfn : UInt64) : Option Bool :=
  if a.flagCyclic && !isCyclicRegion pfn.toNat a.cycle then some true
  else
    match a.ptomXen with
    | some ptom =>
      (ptom (pfn.toNat * a.image.pageSize)).map fun maddr => paddrToOffset a.image maddr = 0
    | none => some !isInSegs a.image pfn.toNat

/-- The next `struct page` and its frame. -/
def advance (v : PageVars) : PageVars := { v with pfn := v.pfn + 1, memMap := v.memMap + a.sizeOf }

/-- Make sure that the `struct page` is in the buffer. -/
def fetch (v : PageVars) : Except Halt PageVars :=
  if v.pfn < v.pfnReadStart ∨ v.pfnReadEnd < v.pfn then do
    let n := a.pfnMm v.pfn
    let b ← a.readmem v.memMap (a.size * n)
    let pageCache ← store v.pageCache (indexPg v.pfn * a.size) b
    return { v with
      pageCache, pfnReadStart := v.pfn, pfnReadEnd := v.pfn + UInt64.ofNat n - 1 }
  else .ok v

/-- The page is looked at as a compound head. -/
def atHead (pfn : UInt64) (page : List UInt8) : Bool :=
  indexPg pfn < pgmmCached - 1 && isCompoundHead a.image.kernel (readPage a.image.kernel page).flags

/-- Execute exclusion, for a block of `1 << order` pages. -/
def exclude (order : Nat) (v : PageVars) : PageVars :=
  let nrPages := UInt64.ofNat (shiftOne order)
  if nrPages = 1 then
    { v with scan := { v.scan with buf := clearBit v.scan.buf v.pfn.toNat a.cycle } }
  else { v with
    scan := excludeRange v.pfn.toNat (v.pfn + nrPages).toNat a.cycle v.scan
    pfn := v.pfn + (nrPages - 1)
    memMap := v.memMap + (nrPages - 1) * a.sizeOf }

/-- The tests of a round, the `struct page` being in the buffer. -/
def examine (v : PageVars) : Except Halt PageVars := do
  let page ← a.load v.pageCache (indexPg v.pfn)
  let next ← if a.atHead v.pfn page then a.load v.pageCache (indexPg v.pfn + 1) else .ok []
  match excludeOrder a.image.kernel a.level v.pfn.toNat page next with
  | none => return a.advance v
  | some order => return a.advance (a.exclude order v)

/-- One round. -/
def round (v : PageVars) : Except Halt PageVars :=
  match a.skips v.pfn with
  | none => .error .failed
  | some true => .ok (a.advance v)
  | some false => do
    let v ← a.fetch v
    a.examine v

/-- The variables before the first round, a pending exclusion done. -/
def start (s : Scan) : PageVars :=
  let cache := (List.range (a.size * pgmmCached)).map a.junk
  let v : PageVars :=
    { pfn := a.pfnStart, memMap := a.memMap, pfnReadStart := UInt64.ofNat (2 ^ 64 - 1)
      pfnReadEnd := 0, pageCache := cache, scan := s }
  if s.pending then
    let excludePfnEnd := UInt64.ofNat s.excludePfnEnd
    { v with
      pfn := excludePfnEnd
      memMap := a.memMap + (excludePfnEnd - a.pfnStart) * a.sizeOf
      scan := excludeRange s.excludePfnStart s.excludePfnEnd a.cycle s }
  else v

/-- The loop comes to its test with these variables. -/
inductive Visits (s : Scan) : PageVars → Prop
  | start : Visits s (a.start s)
  | round {v v' : PageVars} : Visits s v → v.pfn < a.pfnEnd → a.round v = .ok v' → Visits s v'

/-- The `struct page` of a frame, going by the address of the first one of the `mem_map`. -/
def structPage (pfn : UInt64) : List UInt8 :=
  a.bytesAt (a.memMap + (pfn - a.pfnStart) * a.sizeOf) a.size

end PageScan

end Bitmap
