import Makedumpfile.Lib.Bitmap
import Makedumpfile.Lib.Endian

/-!
# The bitmap file

`struct dump_bitmap` with a file behind it: `set_bitmap_file`, `sync_bitmap` and `is_dumpable_file`
see the bitmap through a buffer of one block of `BUFSIZE_BITMAP` bytes, whose number is the `int`
`no_block` (-1 before the first use).
-/

namespace Bitmap

open Lib ByteFile

def bufsizeBitmap : Nat := 4096
def pfnBufbitmap : Nat := 32768

/-- `struct dump_bitmap`, with the contents of the file behind `fd`. -/
structure FileBitmap where
  offset : Nat
  file : ByteFile
  noBlock : Int := -1
  buf : List UInt8 := List.replicate bufsizeBitmap 0
  deriving Repr, DecidableEq

/-- `BUFSIZE_BITMAP * no_block`, a product of two `int`s. -/
def FileBitmap.oldOffset (b : FileBitmap) : Int := b.offset + i32 (bufsizeBitmap * b.noBlock)

/-- The place of the block of `pfn`, computed in 64 bits. -/
def FileBitmap.newOffset (b : FileBitmap) (pfn : Nat) : Nat :=
  b.offset + bufsizeBitmap * (pfn / pfnBufbitmap)

/-- `lseek` and `write` of the buffer; `lseek` refuses a negative offset. -/
def FileBitmap.writeBuf (b : FileBitmap) (offset : Int) : Bool × FileBitmap :=
  if offset < 0 then (false, b)
  else (true, { b with file := pwrite b.file offset.toNat b.buf })

/-- `lseek` and `read` into the buffer; a short read leaves the rest of it. -/
def FileBitmap.readBuf (b : FileBitmap) (offset : Nat) : Bool × FileBitmap :=
  let got := pread b.file offset bufsizeBitmap
  (got.length == bufsizeBitmap, { b with buf := got ++ b.buf.drop got.length })

def setBitmapFile (b : FileBitmap) (pfn : Nat) (val : Bool) : Bool × FileBitmap :=
  let oldOffset := b.oldOffset
  let newOffset := b.newOffset pfn
  let written := if 0 ≤ b.noBlock ∧ oldOffset ≠ newOffset then b.writeBuf oldOffset else (true, b)
  if written.1 = false then written
  else
    let loaded := if oldOffset ≠ newOffset then written.2.readBuf newOffset else (true, written.2)
    if loaded.1 = false then loaded
    else
      let noBlock := if oldOffset ≠ newOffset then i32 (pfn / pfnBufbitmap : Nat) else b.noBlock
      (true, { loaded.2 with noBlock, buf := setBit loaded.2.buf (pfn % pfnBufbitmap) val })

def syncBitmap (b : FileBitmap) : Bool × FileBitmap :=
  if b.noBlock < 0 then (true, b) else b.writeBuf b.oldOffset

/-- The first part of `is_dumpable_file`: the block of `pfn` in the buffer. A failed read is reported,
and the buffer used as it is. -/
def FileBitmap.load (b : FileBitmap) (pfn : Nat) : FileBitmap :=
  if pfn = 0 ∨ b.noBlock % 2 ^ 64 ≠ (pfn / pfnBufbitmap : Nat) then
    { (b.readBuf (b.newOffset pfn)).2 with noBlock := i32 (pfn / pfnBufbitmap : Nat) }
  else b

def isDumpableFile (b : FileBitmap) (pfn : Nat) : Bool × FileBitmap :=
  (isOn (b.load pfn).buf (pfn % pfnBufbitmap), b.load pfn)

/-- One call on the bitmap. -/
inductive Op
  | set (pfn : Nat) (val : Bool)
  | sync
  | isDumpable (pfn : Nat)
  deriving Repr, DecidableEq

def step (b : FileBitmap) : Op → Bool × FileBitmap
  | .set pfn val => setBitmapFile b pfn val
  | .sync => syncBitmap b
  | .isDumpable pfn => isDumpableFile b pfn

/-- A run of calls: what each returns, and the bitmap after them. -/
def run : List Op → FileBitmap → List Bool × FileBitmap
  | [], b => ([], b)
  | op :: ops, b =>
    let r := step b op
    let rest := run ops r.2
    (r.1 :: rest.1, rest.2)

end Bitmap
