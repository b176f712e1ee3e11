import Makedumpfile.Kdump.Read
import Makedumpfile.Bitmap.File
import Makedumpfile.Bitmap.FreeList

/-!
# Filtering a kdump-compressed file again

When the input is itself a kdump-compressed file, the 2nd bitmap of the new dump starts as a copy of
the input's: `copy_bitmap_file` reads it at a place computed from the length of the new bitmap, which
depends on `max_mapnr`; and `get_mem_map` may have lowered `max_mapnr` before. Everything else asks
the input's bitmap through `info->bitmap_memory`, whose place comes from the header.

`info->page_size` comes from the input's vmcoreinfo and not from the header.
-/

namespace Refilter

open Lib ByteFile Kdump

/-- `get_max_mapnr` for a kdump-compressed input. -/
def getMaxMapnr (d : Dump) : Nat := if 6 ≤ d.headerVersion then d.maxMapnr64 else d.maxMapnr

/-- The end of `get_mem_map`: the highest page frame that has a `struct page`. -/
def adjustMaxMapnr (isXenMemory : Bool) (memMapData : List Bitmap.MemMapData) (maxMapnr : Nat) :
    Nat :=
  let valid := memMapData.filter (·.memMap ≠ 0)
  if isXenMemory ∨ valid = [] then maxMapnr
  else min maxMapnr (valid.foldl (fun maxPfn m => max maxPfn m.pfnEnd.toNat) 0)

/-- `info->len_bitmap`, of `prepare_bitmap2_buffer`. -/
def lenBitmap (pageSize maxMapnr : Nat) : Nat :=
  divideup (divideup maxMapnr 8) pageSize * pageSize * 2

/-- `base`. The product of the header's fields is one of `int`s. -/
def copyBase (d : Dump) (pageSize maxMapnr : Nat) : Int :=
  i32 ((1 + d.subHdrSize) * d.blockSize) + (lenBitmap pageSize maxMapnr / 2 : Nat)

/-- A round of the loop, with `offset = k * page_size`. -/
def copyRound (d : Dump) (pageSize : Nat) (base : Int) (b : Bitmap.FileBitmap) (k : Nat) :
    Option Bitmap.FileBitmap := do
  guard (0 ≤ base + (k * pageSize : Nat))
  let buf ← readAt d.file (base + (k * pageSize : Nat)).toNat pageSize
  return { b with file := pwrite b.file (b.offset + k * pageSize) buf }

def copyBitmapFile (d : Dump) (pageSize maxMapnr : Nat) (b : Bitmap.FileBitmap) :
    Option Bitmap.FileBitmap :=
  (List.range (divideup (lenBitmap pageSize maxMapnr / 2) pageSize)).foldlM
    (copyRound d pageSize (copyBase d pageSize maxMapnr)) b

/-- `initialize_2nd_bitmap`, with whatever the file of the bitmaps has. -/
def bitmap2 (pageSize maxMapnr : Nat) (file : ByteFile) : Bitmap.FileBitmap :=
  { offset := lenBitmap pageSize maxMapnr / 2, file }

/-- `info->bitmap_memory` after some reads. -/
def afterReads (d : Dump) (pfns : List Nat) : BitmapBuf :=
  pfns.foldl (fun b pfn => (isDumpableFile d pfn b).2) {}

end Refilter
