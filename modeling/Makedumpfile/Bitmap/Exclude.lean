import Makedumpfile.Bitmap.Memhole
import Makedumpfile.Lib.Endian

/-!
# The 2nd bitmap

`create_2nd_bitmap` in cyclic mode, without Xen: the window starts as the 1st bitmap
(`create_bitmap_from_memhole`), and pages are cleared that have no data, that the dump level excludes
by their `struct page` (`__exclude_unnecessary_pages`), that are on a free list, or that are filled
with zeros. A block of pages is excluded at its head; what is left of it behind the window waits in
`exclude_pfn_start` and `exclude_pfn_end` for the next window.

A `struct page` is its bytes, and its orders may be any number. The number of pages of a block,
`1 << order`, is an `int`, and the sums with it are of 64 bits, so the loop over the pages need not end:
it has a number of rounds as fuel. The counters of excluded pages, which are only printed, are left
out.
-/

namespace Bitmap

open Lib ByteFile

/-! ## What is known of the kernel -/

/-- A `NUMBER()`; -1 is `NOT_FOUND_NUMBER`. -/
abbrev Number := Int

def notFound : Number := -1

/-- The offsets, sizes and numbers that tell how a `struct page` is read. An offset is `none` when it
is `NOT_FOUND_STRUCTURE`; the offsets of the compound order and destructor are 0 when not known. -/
structure Kernel where
  bigendian : Bool := false
  version : Nat := 0
  flags : Nat
  refcount : Nat
  mapping : Nat
  mapcount : Option Nat := none
  compoundHead : Option Nat := none
  priv : Option Nat := none
  compoundOrderOffset : Nat := 0
  compoundDtorOffset : Nat := 0
  freeAreaLength : Option Nat := none
  pgLru : Number := notFound
  pgPrivate : Number := notFound
  pgHeadMask : Number := notFound
  pgSwapcache : Number := notFound
  pgSwapbacked : Number := notFound
  pgHwpoison : Number := notFound
  pgSlab : Number := notFound
  pgBuddy : Number := notFound
  pgHugetlb : Number := notFound
  pageBuddyMapcount : Number := notFound
  pageSlabMapcount : Number := notFound
  pageOfflineMapcount : Number := notFound
  pageUnacceptedMapcount : Number := notFound
  pageHugetlbMapcount : Number := notFound
  hugetlbPageDtor : Number := notFound
  freeHugePage : Nat := 0

/-- `KERNEL_VERSION(x, y, z)`. -/
def kernelVersion (x y z : Nat) : Nat := x <<< 24 ||| y <<< 16 ||| z

/-- The fields of a `struct page` that the tests look at. -/
structure Page where
  flags : Nat
  count : Nat
  mapping : Nat
  mapcount : Nat
  compoundHead : Nat
  priv : Nat
  deriving Repr, DecidableEq

variable (k : Kernel)

def Kernel.uint (b : List UInt8) (off : Nat) : Nat := hostNat k.bigendian (ByteFile.pread b off 4)

def Kernel.ulong (b : List UInt8) (off : Nat) : Nat := hostNat k.bigendian (ByteFile.pread b off 8)

def Kernel.ushort (b : List UInt8) (off : Nat) : Nat := hostNat k.bigendian (ByteFile.pread b off 2)

def Kernel.uchar (b : List UInt8) (off : Nat) : Nat := hostNat k.bigendian (ByteFile.pread b off 1)

def readPage (b : List UInt8) : Page :=
  { flags := k.ulong b k.flags
    count := k.uint b k.refcount
    mapping := k.ulong b k.mapping
    mapcount := (k.mapcount.map (k.uint b)).getD 0
    compoundHead := (k.compoundHead.map (k.ulong b)).getD 0
    priv := (k.priv.map (k.ulong b)).getD 0 }

/-- `test_bit`: the mask is an `int`, so bit 31 stands for all higher bits. -/
def testFlag (nr : Number) (flags : Nat) : Bool :=
  let n := (nr % 32).toNat
  if n = 31 then flags / 2 ^ 31 ≠ 0 else flags.testBit n

/-- `flags & (1UL << NUMBER(nr))`. -/
def testFlagLong (nr : Number) (flags : Nat) : Bool := flags.testBit (nr % 64).toNat

/-- `_mapcount == (int)NUMBER(n)`. -/
def isMapcount (mapcount : Nat) (n : Number) : Bool := mapcount = (n % 2 ^ 32).toNat

def isCompoundHead (flags : Nat) : Bool := flags &&& (k.pgHeadMask % 2 ^ 64).toNat ≠ 0

def isSlab (p : Page) : Bool :=
  (k.pageSlabMapcount ≠ notFound && isMapcount p.mapcount k.pageSlabMapcount) ||
    testFlagLong k.pgSlab p.flags

def isHwpoison (p : Page) : Bool := testFlag k.pgHwpoison p.flags && k.pgHwpoison ≠ notFound

def isAnon (p : Page) : Bool := p.mapping.testBit 0 && !isSlab k p

def isUnaccepted (p : Page) : Bool :=
  isMapcount p.mapcount k.pageUnacceptedMapcount && k.pageUnacceptedMapcount ≠ notFound

/-- `IS_HUGETLB`, `(unsigned long)-1`. -/
def isHugetlbDtor : Nat := 2 ^ 64 - 1

def isHugetlb (dtor : Nat) : Bool :=
  dtor = isHugetlbDtor ||
    (k.hugetlbPageDtor ≠ notFound && (k.hugetlbPageDtor % 2 ^ 64).toNat = dtor) ||
    (k.freeHugePage ≠ 0 && k.freeHugePage = dtor)

def isOffline (p : Page) : Bool :=
  if k.pageOfflineMapcount = notFound then false
  else if isSlab k p then false
  else isMapcount p.mapcount k.pageOfflineMapcount

def isCachePage (p : Page) : Bool :=
  testFlag k.pgLru p.flags ||
    ((k.pgSwapbacked = notFound || testFlag k.pgSwapbacked p.flags) &&
      testFlag k.pgSwapcache p.flags)

def pageIsBuddyV2 (p : Page) : Bool := testFlagLong k.pgBuddy p.flags

def pageIsBuddyV3 (p : Page) : Bool := !isSlab k p && isMapcount p.mapcount k.pageBuddyMapcount

/-- `info->page_is_buddy` as `setup_page_is_buddy` leaves it. -/
def pageIsBuddy : Option (Page → Bool) :=
  if k.priv = none then none
  else if k.pageBuddyMapcount ≠ notFound then
    if k.mapcount ≠ none then some (pageIsBuddyV3 k) else none
  else if k.pgBuddy ≠ notFound then some (pageIsBuddyV2 k) else none

/-! ## One page -/

def dlExcludeZero : Nat := 0
def dlExcludeCache : Nat := 1
def dlExcludeCachePri : Nat := 2
def dlExcludeUserData : Nat := 3
def dlExcludeFree : Nat := 4

/-- `compound_order` and `compound_dtor`, from the `struct page` after the head. -/
def readCompound (p : Page) (next : List UInt8) : Nat × Nat :=
  if k.pageHugetlbMapcount ≠ notFound then
    (k.ulong next k.flags % 256,
      if isMapcount p.mapcount k.pageHugetlbMapcount then isHugetlbDtor else 0)
  else if k.pgHugetlb ≠ notFound then
    let flags1 := k.ulong next k.flags
    (flags1 % 256, if testFlagLong k.pgHugetlb flags1 then isHugetlbDtor else 0)
  else
    (if k.compoundOrderOffset = 0 then 0
      else if k.version ≥ kernelVersion 4 16 0 then k.uchar next k.compoundOrderOffset
      else k.ushort next k.compoundOrderOffset,
      if k.compoundDtorOffset = 0 then 0
      else if k.version ≥ kernelVersion 4 16 0 then k.uchar next k.compoundDtorOffset
      else if k.version ≥ kernelVersion 4 4 0 then k.ushort next k.compoundDtorOffset
      else k.ulong next k.compoundDtorOffset)

def pgmmCached : Nat := 512

/-- The compound order and destructor of a page. The last page of a block of `PGMM_CACHED` is not
looked at, and an order is 0 when it is too large or the page is not aligned to it. -/
def compoundOf (pfn : Nat) (p : Page) (next : List UInt8) : Nat × Nat :=
  if pfn % pgmmCached < pgmmCached - 1 ∧ isCompoundHead k p.flags = true then
    let (order, dtor) := readCompound k p next
    (if order ≥ 64 ∨ pfn % 2 ^ order ≠ 0 then 0 else order, dtor)
  else (0, 0)

/-- The page is managed by the buddy system. -/
def isBuddy (p : Page) : Bool :=
  match pageIsBuddy k with
  | some f => f p
  | none => false

/-- The order of a buddy page is one of the zone's. -/
def validBuddyOrder (p : Page) : Bool :=
  match k.freeAreaLength with
  | some n => p.priv < n
  | none => true

/-- `ARRAY_LENGTH(zone.free_area) - 1`, the order of an unaccepted block, as an unsigned value; an
unknown length is -1. -/
def unacceptedOrder : Nat :=
  match k.freeAreaLength with
  | some n => (n + 2 ^ 64 - 1) % 2 ^ 64
  | none => 2 ^ 64 - 2

/-- The tests of the loop: the order of the block to exclude at this page, or `none` when the page is
kept. -/
def excludeOrder (level pfn : Nat) (page next : List UInt8) : Option Nat :=
  let p := readPage k page
  let (order, dtor) := compoundOf k pfn p next
  -- tail pages are excluded with their head
  if p.compoundHead.testBit 0 then none
  else if level.testBit dlExcludeFree && isBuddy k p then
    if validBuddyOrder k p then some p.priv else none
  else if level.testBit dlExcludeFree && isUnaccepted k p then some (unacceptedOrder k)
  else if level.testBit dlExcludeCache && isCachePage k p && !testFlag k.pgPrivate p.flags &&
      !isAnon k p then some order
  else if level.testBit dlExcludeCachePri && isCachePage k p && !isAnon k p then some order
  else if level.testBit dlExcludeUserData && (isAnon k p || isHugetlb k dtor) then some order
  else if isHwpoison k p then some order
  else if isOffline k p then some order
  else none

/-! ## A window -/

/-- A segment of the input, with its part in the file. -/
structure Extent extends PtLoad where
  fileOffset : Nat
  fileSize : Nat
  deriving Repr, DecidableEq

/-- `struct mem_map_data`; `mapped` is false for `NOT_MEMMAP_ADDR`. -/
structure MemMap where
  mapped : Bool
  pfnStart : Nat
  pfnEnd : Nat
  deriving Repr, DecidableEq

/-- The memory image. `structPage` gives the `struct page` of a frame, `readOk pfn n` tells whether
the `n` of them from `pfn` on can be read. `freeBlocks` are the blocks (first frame and order) of the
free lists, `none` when they cannot be walked, and `zeroPage` tells whether a page is filled with
zeros, `none` when it cannot be read. -/
structure Image where
  pageShift : Nat
  maxMapnr : Nat
  extents : List Extent
  kernel : Kernel
  memMaps : List MemMap
  structPage : Nat → List UInt8
  readOk : Nat → Nat → Bool := fun _ _ => true
  freeBlocks : Option (List (Nat × Nat)) := some []
  zeroPage : Nat → Option Bool := fun _ => some false

variable (m : Image)

def Image.info (bufsizeCyclic : Nat) : Info :=
  { pageShift := m.pageShift, maxMapnr := m.maxMapnr, bufsizeCyclic
    ptLoads := m.extents.map (·.toPtLoad) }

def Image.pageSize : Nat := 2 ^ m.pageShift

def paddrToOffset (paddr : Nat) : Nat :=
  match m.extents.find? fun e => e.physStart ≤ paddr ∧ paddr < e.physStart + e.fileSize with
  | some e => paddr - e.physStart + e.fileOffset
  | none => 0

def isInSegs (pfn : Nat) : Bool := paddrToOffset m (pfn * m.pageSize) ≠ 0

/-- The buffer of the window, `exclude_pfn_start` and `exclude_pfn_end`. -/
structure Scan where
  buf : List UInt8
  excludePfnStart : Nat := 0
  excludePfnEnd : Nat := 0
  deriving Repr, DecidableEq

def Scan.pending (s : Scan) : Prop := s.excludePfnStart < s.excludePfnEnd

instance (s : Scan) : Decidable s.pending := inferInstanceAs (Decidable (_ < _))

def clearBit (buf : List UInt8) (pfn : Nat) (c : PfnCycle) : List UInt8 :=
  (setBitmapBuffer buf pfn false c).2

def clearRange (buf : List UInt8) (pfn n : Nat) (c : PfnCycle) : List UInt8 :=
  (List.range' pfn n).foldl (fun buf pfn => clearBit buf pfn c) buf

def excludeRange (pfn endpfn : Nat) (c : PfnCycle) (s : Scan) : Scan :=
  { excludePfnStart := c.endPfn, excludePfnEnd := endpfn
    buf := clearRange s.buf pfn (min endpfn c.endPfn - pfn) c }

/-- The buffer of `PGMM_CACHED` struct pages. `malloc` leaves it with any content. -/
structure PageCache where
  readStart : Nat := 2 ^ 64 - 1
  readEnd : Nat := 0
  entry : Nat → List UInt8

/-- Read the struct pages from `pfn` on, up to the end of the block of `PGMM_CACHED` or of the
`mem_map`, unless `pfn` is in the buffer. -/
def fetch (pfnEnd pfn : Nat) (pc : PageCache) : Option PageCache :=
  if pfn < pc.readStart ∨ pc.readEnd < pfn then
    let index := pfn % pgmmCached
    let n := if roundup (pfn + 1) pgmmCached < pfnEnd then pgmmCached - index else pfnEnd - pfn
    if m.readOk pfn n then
      some { readStart := pfn, readEnd := pfn + n - 1
             entry := fun j => if index ≤ j ∧ j < index + n then m.structPage (pfn + (j - index))
               else pc.entry j }
    else none
  else some pc

/-- The tests of the loop at `pfn`, whose `struct page` is in the buffer. -/
def pageOrder (level pfn : Nat) (pc : PageCache) : Option Nat :=
  excludeOrder m.kernel level pfn (pc.entry (pfn % pgmmCached)) (pc.entry (pfn % pgmmCached + 1))

/-- `1 << n`, an `int`, as a value of 64 bits: bit 31 is the sign, and bits above it are lost. -/
def shiftOne (n : Nat) : Nat := if n < 31 then 2 ^ n else if n = 31 then 2 ^ 64 - 2 ^ 31 else 0

/-- A sum of 64 bits. -/
def u64 (n : Nat) : Nat := n % 2 ^ 64

/-- Execute exclusion, for a block of `1 << order` pages. The second component is the next `pfn`. -/
def excludeBlock (pfn order : Nat) (c : PfnCycle) (s : Scan) : Scan × Nat :=
  if shiftOne order = 1 then ({ s with buf := clearBit s.buf pfn c }, u64 (pfn + 1))
  else
    let endpfn := u64 (pfn + shiftOne order)
    (excludeRange pfn endpfn c s, endpfn)

/-- The variables of the loop. -/
structure PageLoop where
  pfn : Nat
  cache : PageCache
  scan : Scan

/-- One round; `none` when the struct pages cannot be read. -/
def scanPage (level : Nat) (c : PfnCycle) (pfnEnd : Nat) (l : PageLoop) : Option PageLoop :=
  if !isCyclicRegion l.pfn c then some { l with pfn := u64 (l.pfn + 1) }
  else if !isInSegs m l.pfn then some { l with pfn := u64 (l.pfn + 1) }
  else
    match fetch m pfnEnd l.pfn l.cache with
    | none => none
    | some cache =>
      match pageOrder m level l.pfn cache with
      | none => some { l with pfn := u64 (l.pfn + 1), cache }
      | some order =>
        let r := excludeBlock l.pfn order c l.scan
        some { pfn := r.2, cache, scan := r.1 }

/-- Why there is no result: FALSE was returned, or the fuel is used up. -/
inductive Stop where
  | failed
  | running
  deriving Repr, DecidableEq

def orFail {α : Type} : Option α → Except Stop α
  | some a => .ok a
  | none => .error .failed

/-- The loop over the pages of a `mem_map`. -/
def scanPages (level : Nat) (c : PfnCycle) (pfnEnd : Nat) : Nat → PageLoop → Except Stop Scan
  | 0, _ => .error .running
  | fuel + 1, l =>
    if l.pfn < pfnEnd then
      match scanPage m level c pfnEnd l with
      | none => .error .failed
      | some l => scanPages level c pfnEnd fuel l
    else .ok l.scan

/-- The loop's variables before the first round, a pending exclusion done; `junk` is what `malloc` left
in the page buffer. -/
def startPages (c : PfnCycle) (junk : Nat → List UInt8) (mmd : MemMap) (s : Scan) : PageLoop :=
  if s.pending then
    { pfn := s.excludePfnEnd, cache := { entry := junk }
      scan := excludeRange s.excludePfnStart s.excludePfnEnd c s }
  else { pfn := mmd.pfnStart, cache := { entry := junk }, scan := s }

/-- `__exclude_unnecessary_pages`. -/
def excludePages (level : Nat) (c : PfnCycle) (fuel : Nat) (junk : Nat → List UInt8) (mmd : MemMap)
    (s : Scan) : Except Stop Scan :=
  scanPages m level c mmd.pfnEnd fuel (startPages c junk mmd s)

def excludeUnnecessaryPages (level : Nat) (c : PfnCycle) (fuel : Nat)
    (junk : MemMap → Nat → List UInt8) (s : Scan) : Except Stop Scan :=
  m.memMaps.foldlM (fun s mmd =>
    if mmd.mapped && mmd.pfnEnd ≥ c.startPfn && mmd.pfnStart ≤ c.endPfn then
      excludePages m level c fuel (junk mmd) mmd s
    else .ok s) s

/-! ## create_2nd_bitmap -/

/-- The macro `roundup` on addresses. -/
def pageRoundup (x : Nat) : Nat := roundup x m.pageSize

/-- The frames of an extent that have no data in the file. -/
def nodataFrames (e : Extent) : Nat × Nat :=
  (pageRoundup m (e.physStart + e.fileSize) / m.pageSize, pageRoundup m e.physEnd / m.pageSize)

def excludeNodataPages (c : PfnCycle) (buf : List UInt8) : List UInt8 :=
  m.extents.foldl (fun buf e =>
    let pfn := max (nodataFrames m e).1 c.startPfn
    clearRange buf pfn (min (nodataFrames m e).2 c.endPfn - pfn) c) buf

def excludeFreePage (c : PfnCycle) (buf : List UInt8) : Option (List UInt8) :=
  m.freeBlocks.map fun l => l.foldl (fun buf b => clearRange buf b.1 (2 ^ b.2) c) buf

/-- One page of `exclude_zero_pages_cyclic`. -/
def excludeZeroPage (c : PfnCycle) (buf : List UInt8) (pfn : Nat) : Option (List UInt8) :=
  if !isInSegs m pfn then some buf
  else if !isDumpableBuffer buf pfn c then some buf
  else (m.zeroPage pfn).map fun z => if z then clearBit buf pfn c else buf

def excludeZeroPagesCyclic (c : PfnCycle) (buf : List UInt8) : Option (List UInt8) :=
  (List.range' c.startPfn (c.endPfn - c.startPfn)).foldlM (excludeZeroPage m c) buf

/-- The dump level or the kernel asks for a look at the struct pages. -/
def wantsPages (level : Nat) : Bool :=
  level.testBit dlExcludeCache || level.testBit dlExcludeCachePri ||
    level.testBit dlExcludeUserData || m.kernel.pgHwpoison ≠ notFound ||
    (level.testBit dlExcludeFree && (pageIsBuddy m.kernel).isSome)

/-- `create_2nd_bitmap` for a window, with the pending exclusion of the last one. -/
def create2ndBitmap (elf : Bool) (level bufsizeCyclic fuel : Nat)
    (junk : MemMap → Nat → List UInt8) (c : PfnCycle) (pend : Nat × Nat) : Except Stop Scan := do
  let buf := excludeNodataPages m c
    (createBitmapFromMemhole (m.info bufsizeCyclic) false c 0).2.buf
  let s : Scan := { buf, excludePfnStart := pend.1, excludePfnEnd := pend.2 }
  let s ← if wantsPages m level then excludeUnnecessaryPages m level c fuel junk s else .ok s
  let buf ← if level.testBit dlExcludeFree && (pageIsBuddy m.kernel).isNone then
      orFail (excludeFreePage m c s.buf) else .ok s.buf
  let buf ← if level.testBit dlExcludeZero && elf then orFail (excludeZeroPagesCyclic m c buf)
      else .ok buf
  return { s with buf }

/-- The windows one after the other, each with its buffer. -/
def createWindows (elf : Bool) (level bufsizeCyclic fuel : Nat)
    (junk : PfnCycle → MemMap → Nat → List UInt8) :
    List PfnCycle → Nat × Nat → Except Stop (List (PfnCycle × List UInt8))
  | [], _ => .ok []
  | c :: cs, pend => do
    let s ← create2ndBitmap m elf level bufsizeCyclic fuel (junk c) c pend
    let ws ← createWindows elf level bufsizeCyclic fuel junk cs
      (s.excludePfnStart, s.excludePfnEnd)
    return (c, s.buf) :: ws

/-- The 2nd bitmap of the whole memory, in windows of `bufsize_cyclic` bytes. -/
def secondBitmap (elf : Bool) (level bufsizeCyclic fuel : Nat)
    (junk : PfnCycle → MemMap → Nat → List UInt8) : Except Stop (List (PfnCycle × List UInt8)) :=
  createWindows m elf level bufsizeCyclic fuel junk (m.info bufsizeCyclic).cycles (0, 0)

/-- The page is dumpable: it is on in the buffer of its window. -/
def dumpable (ws : List (PfnCycle × List UInt8)) (pfn : Nat) : Bool :=
  ws.any fun w => isDumpableBuffer w.2 pfn w.1

end Bitmap
