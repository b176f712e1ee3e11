import Makedumpfile.Lib.ByteFile
import Makedumpfile.Lib.Endian

/-!
# Saved page frames

The queue of the ranges of page frames to be deleted from the bitmap: `save_deletes` collects entries
in a buffer of one page, which is written to a file when it is full and another entry comes;
`reset_save_control` writes the last page and goes back to the start; `get_deletes` reads the entries
again, a page at a time. Writing and seeking succeed.
-/

namespace Vmemmap

open Lib

/-- `struct sc_entry`, two `unsigned long`. -/
structure ScEntry where
  startpfn : Nat
  numpfns : Nat
  deriving Repr, DecidableEq

def sizeofScEntry : Nat := 16

/-- `struct save_control`, with the file and its position. -/
structure SaveControl where
  bigendian : Bool := false
  file : ByteFile
  offset : Nat
  buf : List UInt8
  buflen : Nat
  bufposition : Nat
  filelen : Nat
  fileposition : Nat
  deriving Repr, DecidableEq

def initSaveControl (bigendian : Bool) (pageSize : Nat) : SaveControl :=
  { bigendian, file := [], offset := 0, buf := List.replicate pageSize 0, buflen := pageSize
    bufposition := 0, filelen := 0, fileposition := 0 }

/-- `write(sc.sc_fd, sc.sc_buf, sc.sc_buflen)`. -/
def SaveControl.writeBuf (sc : SaveControl) : SaveControl :=
  { sc with file := sc.file.pwrite sc.offset sc.buf, offset := sc.offset + sc.buflen }

/-- The bytes of an entry. -/
def ScEntry.bytes (bigendian : Bool) (e : ScEntry) : List UInt8 :=
  hostBytes bigendian 8 e.startpfn ++ hostBytes bigendian 8 e.numpfns

/-- A full buffer is written first. -/
def SaveControl.flushFull (sc : SaveControl) : SaveControl :=
  if sc.bufposition = sc.buflen then
    { sc.writeBuf with filelen := sc.filelen + sc.buflen, bufposition := 0 }
  else sc

def saveDeletes (sc : SaveControl) (e : ScEntry) : SaveControl :=
  let sc := sc.flushFull
  { sc with buf := ByteFile.pwrite sc.buf sc.bufposition (e.bytes sc.bigendian)
            bufposition := sc.bufposition + sizeofScEntry }

def resetSaveControl (sc : SaveControl) : SaveControl :=
  if sc.bufposition = 0 then sc
  else { sc.writeBuf with filelen := sc.filelen + sc.bufposition, offset := 0, fileposition := 0
                          bufposition := sc.buflen }

/-- `read(sc.sc_fd, sc.sc_buf, sc.sc_buflen)`, with the number of bytes read. -/
def SaveControl.readBuf (sc : SaveControl) : Nat × SaveControl :=
  let b := sc.file.pread sc.offset sc.buflen
  (b.length, { sc with buf := ByteFile.pwrite sc.buf 0 b, offset := sc.offset + b.length })

/-- The next page is read when the buffer is used up; `none` when there is none. -/
def SaveControl.fill (sc : SaveControl) : Option SaveControl :=
  if sc.bufposition = sc.buflen then
    match sc.readBuf with
    | (0, _) => none
    | (_ + 1, sc) => some { sc with bufposition := 0 }
  else some sc

/-- The entry at a place of the buffer. -/
def SaveControl.entryAt (sc : SaveControl) (p : Nat) : ScEntry :=
  ⟨hostNat sc.bigendian (ByteFile.pread sc.buf p 8),
    hostNat sc.bigendian (ByteFile.pread sc.buf (p + 8) 8)⟩

/-- `get_deletes`; `none` when it returns FALSE. -/
def getDeletes (sc : SaveControl) : Option ScEntry × SaveControl :=
  if sc.fileposition ≥ sc.filelen then (none, sc)
  else
    match sc.fill with
    | none => (none, sc)
    | some sc =>
      (some (sc.entryAt sc.bufposition),
        { sc with bufposition := sc.bufposition + sizeofScEntry
                  fileposition := sc.fileposition + sizeofScEntry })

/-- What `n` calls of `get_deletes` return. -/
def getDeletesCalls : Nat → SaveControl → List (Option ScEntry)
  | 0, _ => []
  | n + 1, sc => (getDeletes sc).1 :: getDeletesCalls n (getDeletes sc).2

end Vmemmap
