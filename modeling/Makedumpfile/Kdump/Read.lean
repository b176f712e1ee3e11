import Makedumpfile.Kdump.Write

/-!
# Reading a kdump-compressed file

The way of a read of one page: the 2nd bitmap says whether the page is there, the number of dumpable
pages below it (`valid_pages` for the sections of 4096 pages before, counted for the rest) is the
place of its descriptor, and the descriptor leads to the data. The bitmap is looked at through a
buffer of one block, which stays from call to call.
-/

namespace Kdump

open Lib Output ByteFile

def bufsizeBitmap : Nat := 4096
def pfnBufbitmap : Nat := 32768
def bitmapSectLen : Nat := 4096

/-- The headers as the reader uses them, and the file. -/
structure Dump where
  be : Bool
  libs : Libs
  file : ByteFile
  headerVersion : Nat
  blockSize : Nat
  subHdrSize : Int
  bitmapBlocks : Nat
  maxMapnr : Nat
  maxMapnr64 : Nat
  validPages : List Nat := []

/-- A complete `read` of `n` bytes. -/
def readAt (f : ByteFile) (off n : Nat) : Option (List UInt8) :=
  let b := pread f off n
  if b.length = n then some b else none

/-- `get_kdump_compressed_header_info`. -/
def getHeaderInfo (be : Bool) (libs : Libs) (file : ByteFile) : Option Dump := do
  let dh ← readAt file 0 sizeofDiskDumpHeader
  guard (pread dh 0 8 = kdumpSignature)
  let blockSize := hostNat be (pread dh 428 4)
  let kh ← readAt file blockSize sizeofKdumpSubHeader
  guard (1 ≤ hostNat be (pread dh 8 4))
  return {
    be, libs, file, blockSize
    headerVersion := hostNat be (pread dh 8 4)
    subHdrSize := i32 (hostNat be (pread dh 432 4))
    bitmapBlocks := hostNat be (pread dh 436 4)
    maxMapnr := hostNat be (pread dh 440 4)
    maxMapnr64 := hostNat be (pread kh 96 8) }

variable (d : Dump)

/-- The offset of the 2nd bitmap, of `initialize_bitmap_memory`. -/
def Dump.offsetBitmap2 : Nat :=
  blockOffset (1 + d.subHdrSize) d.blockSize + d.blockSize * d.bitmapBlocks / 2

/-- `info->bitmap_memory`: the number of the block in the buffer and the buffer. -/
structure BitmapBuf where
  noBlock : Int := -1
  buf : List UInt8 := List.replicate bufsizeBitmap 0
  deriving Repr, DecidableEq

/-- The buffer with the block that has `pfn`. A short read leaves the rest of the buffer. -/
def loadBlock (pfn : Nat) (b : BitmapBuf) : BitmapBuf :=
  if pfn = 0 ∨ b.noBlock % 2 ^ 64 ≠ (pfn / pfnBufbitmap : Nat) then
    let got := pread d.file (d.offsetBitmap2 + bufsizeBitmap * (pfn / pfnBufbitmap)) bufsizeBitmap
    { noBlock := i32 (pfn / pfnBufbitmap : Nat), buf := got ++ b.buf.drop got.length }
  else b

def isDumpableFile (pfn : Nat) (b : BitmapBuf) : Bool × BitmapBuf :=
  let b := loadBlock d pfn b
  (isOn b.buf (pfn % pfnBufbitmap), b)

/-- The dumpable ones of the `n` pages from `pfn` on. -/
def countDumpable : Nat → Nat → BitmapBuf → Nat × BitmapBuf
  | _, 0, b => (0, b)
  | pfn, n + 1, b =>
    let on := isDumpableFile d pfn b
    let rest := countDumpable (pfn + 1) n on.2
    (on.1.toNat + rest.1, rest.2)

/-- The entries of `valid_pages` after `prev`, for `n` sections from `pfn` on. -/
def validPagesLoop : Nat → Nat → Nat → BitmapBuf → List Nat × BitmapBuf
  | 0, _, _, b => ([], b)
  | n + 1, pfn, prev, b =>
    let sect := countDumpable d pfn bitmapSectLen b
    let rest := validPagesLoop n (pfn + bitmapSectLen) (prev + sect.1) sect.2
    ((prev + sect.1) :: rest.1, rest.2)

/-- The section count must fit the loop's `int`. -/
def initializeBitmapMemory : Option (Dump × BitmapBuf) :=
  let maxSectLen :=
    divideup (if 6 ≤ d.headerVersion then d.maxMapnr64 else d.maxMapnr) bitmapSectLen
  if 2 ^ 31 ≤ maxSectLen then none
  else
    let r := validPagesLoop d (maxSectLen - 1) 0 0 {}
    some ({ d with validPages := 0 :: r.1 }, r.2)

/-- The place of the descriptor of `pfn`. -/
def pfnToPos (pfn : Nat) (b : BitmapBuf) : Nat × BitmapBuf :=
  let first := PfnCycle.round pfn bitmapSectLen
  let r := countDumpable d first (pfn - first) b
  (d.validPages.getD (pfn / bitmapSectLen) 0 + r.1, r.2)

def readPageDesc (pfn : Nat) (b : BitmapBuf) : Option PageDesc × BitmapBuf :=
  let pos := pfnToPos d pfn b
  let offset := blockOffset (1 + d.subHdrSize + d.bitmapBlocks) d.blockSize
  let pd := (readAt d.file (offset + pos.1 * sizeofPageDesc) sizeofPageDesc).map (.decode d.be)
  (pd.filter fun pd => pd.size ≤ d.blockSize, pos.2)

/-- What a read of a page gives. -/
inductive ReadRet
  | excluded
  | failed
  | page (b : List UInt8)
  deriving Repr, DecidableEq

def readpageKdumpCompressed (pfn : Nat) (b : BitmapBuf) : ReadRet × BitmapBuf :=
  match isDumpableFile d pfn b with
  | (false, b) => (.excluded, b)
  | (true, b) =>
    match readPageDesc d pfn b with
    | (none, b) => (.failed, b)
    | (some pd, b) =>
      match (readAt d.file pd.offset pd.size).bind (decompressPage d.libs d.blockSize pd.flags) with
      | none => (.failed, b)
      | some buf => (.page buf, b)

/-- Reads of pages, one after the other. -/
def readPages : List Nat → BitmapBuf → List ReadRet
  | [], _ => []
  | pfn :: pfns, b =>
    let (r, b) := readpageKdumpCompressed d pfn b
    r :: readPages pfns b

/-- A file opened for reading, and the pages read from it. -/
def readDump (be : Bool) (libs : Libs) (file : ByteFile) (pfns : List Nat) :
    Option (List ReadRet) := do
  let d ← getHeaderInfo be libs file
  let (d, b) ← initializeBitmapMemory d
  return readPages d pfns b

end Kdump
