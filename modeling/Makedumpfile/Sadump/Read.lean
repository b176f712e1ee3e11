import Makedumpfile.Bitmap.File

/-!
# Reading a sadump image

A sadump image has two bitmaps, the RAM pages and the pages that were dumped, in the opposite bit
order of the other formats, and the dumped pages one after the other in the data area, which a disk
set continues from disk to disk. A read of a page asks both bitmaps, counts the dumped pages below it
(`block_table` for whole sections, the bitmap for the rest) and finds the disk of that block.
-/

namespace Sadump

open Lib ByteFile Bitmap

def sadumpPfSectionNum : Nat := 4096

/-- `enum sadump_format_type`, the known ones. -/
inductive FormatType
  | singlePartition
  | diskset
  | mediaBackup
  deriving Repr, DecidableEq

/-- `struct sadump_diskset_info`. -/
structure DisksetInfo where
  memory : ByteFile
  usedDevice : Nat
  dataOffset : Nat
  deriving Repr, DecidableEq

/-- The headers as `read_sadump_header` and `read_sadump_header_diskset` leave them, and the devices.
`pageShift` is that of `info->page_size`; `others` are the disks after the first with their
`used_device`. -/
structure SadumpInfo where
  flagSadump : FormatType
  pageShift : Nat
  memory : ByteFile
  usedDevice : Nat
  others : List (ByteFile × Nat)
  blockSize : Nat
  subHdrOffset : Nat
  subHdrSize : Nat
  bitmapBlocks : Nat
  dumpableBitmapBlocks : Nat
  maxMapnr : Nat
  kdumpBackedUp : Bool := false
  backupSrcStart : Nat := 0
  backupSrcSize : Nat := 0
  backupOffset : Nat := 0
  deriving Repr, DecidableEq

variable (si : SadumpInfo)

/-- `si->data_offset`: `unsigned long` throughout. -/
def SadumpInfo.dataOffset : Nat :=
  si.subHdrOffset + si.subHdrSize * si.blockSize +
    (si.blockSize * si.bitmapBlocks + si.blockSize * si.dumpableBitmapBlocks)

/-- `si->diskset_info`: on the disks after the first the data follow the partition header. -/
def SadumpInfo.disksetInfo : List DisksetInfo :=
  ⟨si.memory, si.usedDevice, si.dataOffset⟩ :: si.others.map fun d => ⟨d.1, d.2, si.blockSize⟩

/-- `si->ram_bitmap->offset`; the product is a `uint32_t`. -/
def SadumpInfo.ramBitmapOffset : Nat := si.subHdrOffset + si.blockSize * si.subHdrSize % 2 ^ 32

/-- `dumpable_bitmap_offset`; the sum and the product are `uint32_t`. -/
def SadumpInfo.dumpableBitmapOffset : Nat :=
  si.subHdrOffset + si.blockSize * ((si.subHdrSize + si.bitmapBlocks) % 2 ^ 32) % 2 ^ 32

/-- `sadump_is_on`: the first bit of a byte is its highest. -/
def sadumpIsOn (bm : List UInt8) (i : Nat) : Bool := (bm.getD (i / 8) 0).toNat.testBit (7 - i % 8)

def sadumpIsDumpable (b : FileBitmap) (pfn : Nat) : Bool × FileBitmap :=
  (sadumpIsOn (b.load pfn).buf (pfn % pfnBufbitmap), b.load pfn)

/-- The pages of the `n` from `pfn` on for which `test` says yes. -/
def countPages (test : FileBitmap → Nat → Bool × FileBitmap) :
    Nat → Nat → FileBitmap → Nat × FileBitmap
  | _, 0, b => (0, b)
  | pfn, n + 1, b =>
    let on := test b pfn
    let rest := countPages test (pfn + 1) n on.2
    (on.1.toNat + rest.1, rest.2)

/-- The entries of `block_table` for `n` sections from `section` on; `prev` is the entry before. The
bits are counted with `is_dumpable`. -/
def blockTableLoop : Nat → Nat → Nat → FileBitmap → List Nat × FileBitmap
  | 0, _, _, b => ([], b)
  | n + 1, sect, prev, b =>
    let here := countPages isDumpableFile (sect * sadumpPfSectionNum) sadumpPfSectionNum b
    let rest := blockTableLoop n (sect + 1) (prev + here.1) here.2
    ((prev + here.1) :: rest.1, rest.2)

/-- What stays from call to call: `info->bitmap_memory`, `si->ram_bitmap`, `si->block_table`, and
whether `DL_EXCLUDE_ZERO` was added to `info->dump_level`. -/
structure State where
  bitmapMemory : FileBitmap
  ramBitmap : FileBitmap
  blockTable : List Nat
  excludeZero : Bool := false
  deriving Repr, DecidableEq

/-- Looks for a RAM page that was not dumped among the `n` pages from `pfn` on. -/
def zeroFilter : Nat → Nat → State → State
  | _, 0, s => s
  | pfn, n + 1, s =>
    let ram := sadumpIsDumpable s.ramBitmap pfn
    if ram.1 then
      let dumpable := sadumpIsDumpable s.bitmapMemory pfn
      let s := { s with ramBitmap := ram.2, bitmapMemory := dumpable.2 }
      if dumpable.1 then zeroFilter (pfn + 1) n s else { s with excludeZero := true }
    else zeroFilter (pfn + 1) n { s with ramBitmap := ram.2 }

def sadumpInitializeBitmapMemory : State :=
  let table := blockTableLoop (divideup si.maxMapnr sadumpPfSectionNum) 0 0
    { offset := si.dumpableBitmapOffset, file := si.memory }
  zeroFilter 0 si.maxMapnr
    { bitmapMemory := table.2, blockTable := table.1
      ramBitmap := { offset := si.ramBitmapOffset, file := si.memory } }

def pfnToBlock (s : State) (pfn : Nat) : Nat × FileBitmap :=
  let sect := pfn / sadumpPfSectionNum
  let block := if sect ≠ 0 then s.blockTable.getD (sect - 1) 0 else 0
  let rest := countPages sadumpIsDumpable (sect * sadumpPfSectionNum)
    (pfn - sect * sadumpPfSectionNum) s.bitmapMemory
  (block + rest.1, rest.2)

/-- The disk and the offset in its data area. -/
def lookupDiskset : List DisksetInfo → Nat → Option (DisksetInfo × Nat)
  | [], _ => none
  | sdi :: rest, offset =>
    let ramSize := sdi.usedDevice - sdi.dataOffset
    if offset < ramSize then some (sdi, offset) else lookupDiskset rest (offset - ramSize)

/-- `lseek` and a complete `read` of a page. -/
def SadumpInfo.readPage (f : ByteFile) (off : Nat) : Option (List UInt8) :=
  let b := pread f off (2 ^ si.pageShift)
  if b.length = 2 ^ si.pageShift then some b else none

/-- The page at an offset of the data area, which a disk set continues from disk to disk. -/
def SadumpInfo.readData (wholeOffset : Nat) : Option (List UInt8) :=
  match si.flagSadump with
  | .diskset =>
    match lookupDiskset si.disksetInfo wholeOffset with
    | none => none
    | some (sdi, offset) => si.readPage sdi.memory (offset + sdi.dataOffset)
  | _ => si.readPage si.memory (wholeOffset + si.dataOffset)

/-- A page of the 1st kernel that kdump moved away is read from its new place. -/
def SadumpInfo.backup (paddr : Nat) : Nat :=
  if si.kdumpBackedUp ∧ si.backupSrcStart ≤ paddr ∧ paddr < si.backupSrcStart + si.backupSrcSize then
    (paddr + si.backupOffset + 2 ^ 64 - si.backupSrcStart) % 2 ^ 64
  else paddr

def readpageSadump (paddr : Nat) (s : State) : Option (List UInt8) × State :=
  let pfn := si.backup paddr / 2 ^ si.pageShift
  if si.maxMapnr ≤ pfn then (none, s)
  else
    let ram := sadumpIsDumpable s.ramBitmap pfn
    let s := { s with ramBitmap := ram.2 }
    if ram.1 then
      let dumpable := sadumpIsDumpable s.bitmapMemory pfn
      let s := { s with bitmapMemory := dumpable.2 }
      if dumpable.1 then
        let block := pfnToBlock s pfn
        (si.readData (block.1 * si.blockSize), { s with bitmapMemory := block.2 })
      else (some (List.replicate (2 ^ si.pageShift) 0), s)
    else (none, s)

/-- Reads of pages, one after the other. -/
def readPages : List Nat → State → List (Option (List UInt8))
  | [], _ => []
  | paddr :: paddrs, s =>
    let r := readpageSadump si paddr s
    r.1 :: readPages paddrs r.2

/-- An image opened, and the pages read from it. -/
def readImage (paddrs : List Nat) : List (Option (List UInt8)) :=
  readPages si paddrs (sadumpInitializeBitmapMemory si)

end Sadump
