import Makedumpfile.Cycle
import Makedumpfile.Lib.Fold
import Makedumpfile.Kdump.Format

/-!
# Writing a kdump-compressed file

`write_kdump_header` and `write_kdump_pages_and_bitmap_cyclic`, without threads. The two bitmaps are
in memory and are written a cycle at a time; descriptors and page data go through a write-behind
cache each, and `write_kdump_page` flushes both when one of them is nearly full. What a flush that
fails leaves behind is part of the model.

What `create_1st_bitmap` and `create_2nd_bitmap` give and what `read_pfn` and `filter_data_buffer`
make of a page are data of `Info`.
-/

namespace Kdump

open Lib Output ByteFile

/-- What the writers take from `info` and from the input. -/
structure Info where
  opts : Opts := {}
  pageShift : Nat := 12
  blockOrder : Nat
  maxMapnr : Nat
  bufsizeCyclic : Nat
  flagCompress : Nat
  dumpLevel : Nat
  flagExcludevm : Bool := false
  flagSplit : Bool := false
  splitStartPfn : Nat := 0
  splitEndPfn : Nat := 0
  numDumpable : Nat
  libs : Libs
  bitmap1 : Nat → Bool
  bitmap2 : Nat → Bool
  page : Nat → List UInt8
  /-- The notes; none when there is no PT_NOTE. -/
  note : List UInt8 := []
  /-- Position in the notes and size of the vmcoreinfo. -/
  vmcoreinfo : Option (Nat × Nat) := none
  physBase : Nat := 0
  utsname : Vector UInt8 390 := .replicate 390 0
  timestamp : Vector UInt8 16 := .replicate 16 0
  nrCpus : Nat := 1
  /-- What follows the collected descriptors in the header buffer when a flush fails. -/
  staleHeader : List UInt8 := []
  pageShift_ge : 12 ≤ pageShift := by decide
  pageShift_le : pageShift ≤ 22 := by decide
  bufsizeCyclic_pos : 0 < bufsizeCyclic := by decide
  length_page : ∀ pfn, (page pfn).length = 2 ^ pageShift

variable (i : Info)

def Info.pageSize : Nat := 2 ^ i.pageShift

def Info.pfnCyclic : Nat := i.bufsizeCyclic * 8

/-- `info->len_bitmap`, of `prepare_bitmap2_buffer`. -/
def Info.lenBitmap : Nat := divideup (divideup i.maxMapnr 8) i.pageSize * i.pageSize * 2

/-- `dump_level & DL_EXCLUDE_ZERO`. -/
def Info.excludeZero : Bool := i.dumpLevel &&& 0x1 ≠ 0

/-! ## The headers -/

/-- `sub_hdr_size`: the notes' size goes through an `int`. -/
@[irreducible] def Info.subHdrSize : Int :=
  (i32 (i32 (sizeofKdumpSubHeader + i.note.length) + (i.pageSize - 1))).tdiv i.pageSize

def Info.status : Nat :=
  (if i.flagExcludevm then 0x10 else 0) |||
    (if i.flagCompress &&& compressedZlib ≠ 0 then compressedZlib
    else if i.libs.lzo.isSome ∧ i.flagCompress &&& compressedLzo ≠ 0 then compressedLzo
    else if i.libs.snappy.isSome ∧ i.flagCompress &&& compressedSnappy ≠ 0 then compressedSnappy
    else if i.libs.zstd.isSome ∧ i.flagCompress &&& compressedZstd ≠ 0 then compressedZstd
    else 0)

def Info.dumpHeader : DiskDumpHeader where
  headerVersion := 6
  utsname := i.utsname
  timestamp := i.timestamp
  status := i.status
  blockSize := i.pageSize
  subHdrSize := i.subHdrSize
  bitmapBlocks := divideup i.lenBitmap i.pageSize % 2 ^ 32
  maxMapnr := min i.maxMapnr (2 ^ 32 - 1)
  nrCpus := i.nrCpus

/-- `block_size + sizeof(kh)`, where the notes go. -/
def Info.offsetNote : Nat := i.pageSize + sizeofKdumpSubHeader

def Info.subHeader : KdumpSubHeader where
  physBase := i.physBase
  dumpLevel := i.dumpLevel
  split := if i.flagSplit then 1 else 0
  startPfn := if i.flagSplit then min i.splitStartPfn (2 ^ 32 - 1) else 0
  endPfn := if i.flagSplit then min i.splitEndPfn (2 ^ 32 - 1) else 0
  offsetVmcoreinfo :=
    if i.note = [] then 0 else i.vmcoreinfo.elim 0 fun vi => vi.1 + i.offsetNote
  sizeVmcoreinfo := if i.note = [] then 0 else i.vmcoreinfo.elim 0 fun vi => vi.2
  offsetNote := if i.note = [] then 0 else i.offsetNote
  sizeNote := i.note.length
  startPfn64 := if i.flagSplit then i.splitStartPfn else 0
  endPfn64 := if i.flagSplit then i.splitEndPfn else 0
  maxMapnr64 := i.maxMapnr

/-- `blocks * block_size` as an `unsigned long`. -/
@[irreducible] def blockOffset (blocks : Int) (blockSize : Nat) : Nat := ((blocks * blockSize) % 2 ^ 64).toNat

/-- The offset of the 1st bitmap. -/
def DiskDumpHeader.offsetBitmap (dh : DiskDumpHeader) : Nat :=
  blockOffset (1 + dh.subHdrSize) dh.blockSize

/-- The offset of the descriptors. -/
def DiskDumpHeader.offsetDesc (dh : DiskDumpHeader) : Nat :=
  blockOffset (1 + dh.subHdrSize + dh.bitmapBlocks) dh.blockSize

/-- Writes at fixed places, up to the first that fails. -/
def writeAll (c : Opts) : List (Nat × List UInt8) → Out → Bool × Out :=
  tryEach fun w => writeBuffer c .file w.1 w.2

def writeKdumpHeader (o : Out) : Bool × Out :=
  writeAll i.opts ((0, i.dumpHeader.encode i.opts.bigendian) ::
    (if i.note = [] then [] else [(i.offsetNote, i.note)]) ++
    [(i.pageSize, i.subHeader.encode i.opts.bigendian)]) o

/-! ## The bitmaps -/

/-- `int increment`, the bytes of a cycle's bits. -/
def increment (cycle : PfnCycle) : Int := i32 (divideup (cycle.endPfn - cycle.startPfn) 8)

/-- The write of a cycle's bits. A negative size is no size a `write` takes. -/
def writeBits (bit : Nat → Bool) (cycle : PfnCycle) (offset : Nat) (o : Out) : Bool × Out :=
  if increment cycle < 0 then (false, o)
  else writeBuffer i.opts .file offset
    ((bitmapBytes bit cycle.startPfn (cycle.endPfn - cycle.startPfn)).take
      (increment cycle).toNat) o

def writeKdumpBitmap1Buffer (offsetBitmap1 : Nat) (cycle : PfnCycle) (o : Out) : Bool × Out :=
  writeBits i i.bitmap1 cycle
    (offsetBitmap1 + i.bufsizeCyclic * (cycle.startPfn / i.pfnCyclic)) o

/-- The state of the writer. `offsetBitmap1` is `info->offset_bitmap1`. -/
structure Writer where
  offsetBitmap1 : Nat
  cdHeader : CacheData
  cdPage : CacheData
  offsetData : Nat
  out : Out
  deriving Repr, DecidableEq

def writeKdumpBitmap2Buffer (cycle : PfnCycle) (w : Writer) : Bool × Writer :=
  match writeBits i i.bitmap2 cycle (w.offsetBitmap1 + i.lenBitmap / 2) w.out with
  | (false, out) => (false, { w with out })
  | (true, out) =>
    (true, { w with out, offsetBitmap1 := w.offsetBitmap1 + (increment cycle).toNat })

/-! ## Pages -/

def writeCdBuf (c : Opts) (cd : CacheData) (o : Out) : Bool × Out :=
  if cd.buf = [] then (true, o) else writeBuffer c cd.fd cd.offset cd.buf o

/-- The descriptors in a buffer. -/
def descsOf (be : Bool) (mem : List UInt8) : List PageDesc :=
  (List.range (mem.length / sizeofPageDesc)).map fun k =>
    .decode be (pread mem (sizeofPageDesc * k) sizeofPageDesc)

/-- The loop of `get_nr_pages`, `none` when it leaves the buffer. -/
def nrPagesLoop (room : Int) : Int → List PageDesc → Option Nat
  | _, [] => none
  | size, pd :: pds =>
    if i32 (size + pd.size) ≤ room then (nrPagesLoop room (i32 (size + pd.size)) pds).map (· + 1)
    else some 0

/-- How many pages of the page buffer are in the file; -1 when the end of the file is negative as an
`int`. -/
def getNrPages (mem : List UInt8) (cdPage : CacheData) (o : Out) : Option Int :=
  let fileEnd := i32 (if i.opts.flagDryRun then o.writeBytes else o.file.length)
  if fileEnd < 0 then some (-1)
  else (nrPagesLoop (fileEnd - cdPage.offset) 0 (descsOf i.opts.bigendian mem)).map fun n => (n : Int)

/-- The flush of both buffers before they overflow. When the page data does not go out completely,
the descriptors of the pages that are missing are overwritten with zeros. -/
def flushBoth (w : Writer) : Bool × Writer :=
  match writeCdBuf i.opts w.cdHeader w.out with
  | (false, out) =>
    let cdHeader := { w.cdHeader with buf := List.replicate w.cdHeader.buf.length 0 }
    (false, { w with cdHeader, out := (writeCdBuf i.opts cdHeader out).2 })
  | (true, out) =>
    match writeCdBuf i.opts w.cdPage out with
    | (false, out) =>
      match getNrPages i (w.cdHeader.buf ++ i.staleHeader) w.cdPage out with
      | none => (false, { w with out })
      | some nrPages =>
        let written := i32 (sizeofPageDesc * nrPages)
        -- a size below the written headers wraps around and no `write` takes it
        if written < 0 ∨ w.cdHeader.buf.length < written.toNat then (false, { w with out })
        else
          let cdHeader :=
            { w.cdHeader with
              buf := List.replicate (w.cdHeader.buf.length - written.toNat) 0
              offset := w.cdHeader.offset + written.toNat }
          (false, { w with cdHeader, out := (writeCdBuf i.opts cdHeader out).2 })
    | (true, out) =>
      (true,
        { w with
          cdHeader := { w.cdHeader with buf := [], offset := w.cdHeader.offset + w.cdHeader.buf.length }
          cdPage := { w.cdPage with buf := [], offset := w.cdPage.offset + w.cdPage.buf.length }
          out })

/-- The results of the two `write_cache` calls are not looked at. -/
def writeKdumpPage (pd : PageDesc) (data : List UInt8) (w : Writer) : Bool × Writer :=
  let r :=
    if w.cdHeader.cacheSize ≤ w.cdHeader.buf.length + sizeofPageDesc ∨
        w.cdPage.cacheSize ≤ w.cdPage.buf.length + pd.size then flushBoth i w
    else (true, w)
  match r with
  | (false, w) => (false, w)
  | (true, w) =>
    let (_, cdHeader, out) := writeCache i.opts w.cdHeader (pd.encode i.opts.bigendian) w.out
    let (_, cdPage, out) := writeCache i.opts w.cdPage data out
    (true, { w with cdHeader, cdPage, out })

/-- The body of the page loop, for a dumpable page. -/
def writePage (pdZero : PageDesc) (pfn : Nat) (w : Writer) : Bool × Writer :=
  if i.excludeZero ∧ isZeroPage i.pageSize (i.page pfn) then
    let (ok, cdHeader, out) := writeCache i.opts w.cdHeader (pdZero.encode i.opts.bigendian) w.out
    (ok, { w with cdHeader, out })
  else
    let (flags, data) := compressPage i.libs i.flagCompress i.pageSize (i.page pfn)
    writeKdumpPage i { offset := w.offsetData, size := data.length, flags } data
      { w with offsetData := w.offsetData + data.length }

/-- The page frames of a cycle that belong to this file. -/
def splitRange (cycle : PfnCycle) : List Nat :=
  let startPfn := if i.flagSplit then max cycle.startPfn i.splitStartPfn else cycle.startPfn
  let endPfn := if i.flagSplit then min cycle.endPfn i.splitEndPfn else cycle.endPfn
  List.range' startPfn (endPfn - startPfn)

def writeKdumpPagesCyclic (pdZero : PageDesc) (cycle : PfnCycle) : Writer → Bool × Writer :=
  tryEach (writePage i pdZero) ((splitRange i cycle).filter i.bitmap2)

/-! ## The whole file -/

def Info.cycles : List PfnCycle := PfnCycle.forEachCycle i.pfnCyclic false 0 i.maxMapnr

/-- The descriptor of the zero-filled pages. -/
def Info.pdZero : PageDesc :=
  { offset := i.dumpHeader.offsetDesc + sizeofPageDesc * i.numDumpable
    size := i.pageSize
    flags := 0 }

/-- The zero-filled page in front of the page data. -/
def writeZeroPage (w : Writer) : Bool × Writer :=
  if i.excludeZero then
    let (ok, cdPage, out) := writeCache i.opts w.cdPage (List.replicate i.pageSize 0) w.out
    (ok, { w with cdPage, out, offsetData := w.offsetData + i.pageSize })
  else (true, w)

/-- The cycle's bits and its pages. -/
def writeCycle (cycle : PfnCycle) (w : Writer) : Bool × Writer :=
  match writeKdumpBitmap2Buffer i cycle w with
  | (false, w) => (false, w)
  | (true, w) => writeKdumpPagesCyclic i i.pdZero cycle w

/-- The remainders of the two caches. -/
def writeRemainder (w : Writer) : Bool × Writer :=
  match writeCacheBufsz i.opts w.cdPage w.out with
  | (false, cdPage, out) => (false, { w with cdPage, out })
  | (true, cdPage, out) =>
    let (ok, cdHeader, out) := writeCacheBufsz i.opts w.cdHeader out
    (ok, { w with cdHeader, cdPage, out })

/-- The state before the first write of the body. -/
def initialWriter (o : Out) : Writer :=
  let cd := prepareCacheData .file i.pageSize i.blockOrder
  let offset := i.dumpHeader.offsetDesc
  { offsetBitmap1 := i.dumpHeader.offsetBitmap
    cdHeader := { cd with offset }
    cdPage := { cd with offset := offset + sizeofPageDesc * i.numDumpable }
    offsetData := offset + sizeofPageDesc * i.numDumpable
    out := o }

def writeKdumpPagesAndBitmapCyclic (o : Out) : Bool × Out :=
  match writeZeroPage i (initialWriter i o) with
  | (false, w) => (false, w.out)
  | (true, w) =>
    match tryEach (writeKdumpBitmap1Buffer i w.offsetBitmap1) i.cycles w.out with
    | (false, out) => (false, out)
    | (true, out) =>
      match tryEach (writeCycle i) i.cycles { w with out } with
      | (false, w) => (false, w.out)
      | (true, w) =>
        let (ok, w) := writeRemainder i w
        (ok, w.out)

/-- The kdump part of `writeout_dumpfile`. -/
def writeoutDumpfile (o : Out) : Bool × Out :=
  match writeKdumpHeader i o with
  | (false, o) => (false, o)
  | (true, o) => writeKdumpPagesAndBitmapCyclic i o

end Kdump
