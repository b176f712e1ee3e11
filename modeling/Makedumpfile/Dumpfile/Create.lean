import Makedumpfile.Bitmap.Exclude
import Makedumpfile.Kdump.Write

/-!
# Creating a dump

`create_dumpfile` in cyclic mode, for one kdump-compressed file and without threads. The dumpable
pages are counted first, in a pass over the windows of its own (`create_dump_bitmap`); then the file
is written, and each bitmap is made a second time on the way, a window at a time
(`writeout_dumpfile`). When the device is full the file is deleted, and the next dump level of the
command line is tried.

The input is no dump that was filtered before, there is nothing to erase, and the files can be
opened. What `check_and_modify_headers` does to an incomplete file is left out. A loop over struct
pages that does not end is a result that is `none`.
-/

namespace Dumpfile

open Lib Output Kdump
open Bitmap (Image MemMap Stop isDumpableBuffer create1stBitmapBuffer create2ndBitmap secondBitmap)

/-- The memory image, and what the writers know of it. The bitmaps, `dump_level` and `num_dumpable`
of `info` are not used. -/
structure Setup where
  image : Image
  info : Kdump.Info
  fuel : Nat
  maxMapnr_eq : image.maxMapnr = info.maxMapnr
  pageShift_eq : image.pageShift = info.pageShift

/-- What `malloc` leaves in the page buffers of a pass over the windows. -/
abbrev Junk := PfnCycle → MemMap → Nat → List UInt8

variable (su : Setup)

/-- `info` at a dump level, with the number of dumpable pages. -/
def Setup.infoAt (level numDumpable : Nat) : Kdump.Info :=
  { su.info with dumpLevel := level, numDumpable }

/-! ## The number of dumpable pages -/

def windowPages (w : PfnCycle × List UInt8) : List Nat :=
  (List.range' w.1.startPfn (w.1.endPfn - w.1.startPfn)).filter fun pfn =>
    isDumpableBuffer w.2 pfn w.1

/-- `get_num_dumpable_cyclic_single`; a failure is FALSE, the number 0. -/
def getNumDumpableCyclic (level : Nat) (junk : Junk) : Option Nat :=
  match secondBitmap su.image false level su.info.bufsizeCyclic su.fuel junk with
  | .ok ws => some (ws.map fun w => (windowPages w).length).sum
  | .error .failed => some 0
  | .error .running => none

/-! ## Writing the file -/

variable (i : Kdump.Info)

/-- The write of a window's buffer. A negative size is no size a `write` takes. -/
def writeBuf (buf : List UInt8) (cycle : PfnCycle) (offset : Nat) (o : Out) : Bool × Out :=
  if increment cycle < 0 then (false, o)
  else writeBuffer i.opts .file offset (buf.take (increment cycle).toNat) o

/-- `create_1st_bitmap` and `write_kdump_bitmap1_buffer`. -/
def writeBitmap1 (m : Image) (offsetBitmap1 : Nat) (cycle : PfnCycle) (o : Out) : Bool × Out :=
  match create1stBitmapBuffer (m.info i.bufsizeCyclic) cycle 0 with
  | (false, _) => (false, o)
  | (true, w) =>
    writeBuf i w.buf cycle (offsetBitmap1 + i.bufsizeCyclic * (cycle.startPfn / i.pfnCyclic)) o

/-- `write_kdump_bitmap2_buffer` and `write_kdump_pages_cyclic`, with the buffer of the window. -/
def writeWindow (cycle : PfnCycle) (buf : List UInt8) (w : Writer) : Bool × Writer :=
  match writeBuf i buf cycle (w.offsetBitmap1 + i.lenBitmap / 2) w.out with
  | (false, out) => (false, { w with out })
  | (true, out) =>
    writeKdumpPagesCyclic { i with bitmap2 := fun pfn => isDumpableBuffer buf pfn cycle } i.pdZero
      cycle { w with out, offsetBitmap1 := w.offsetBitmap1 + (increment cycle).toNat }

/-- The loop that makes the 2nd bitmap and writes it, with the pending exclusion. -/
def writeWindows (m : Image) (fuel : Nat) (junk : Junk) :
    List PfnCycle → Nat × Nat → Writer → Option (Bool × Writer)
  | [], _, w => some (true, w)
  | c :: cs, pend, w =>
    match create2ndBitmap m false i.dumpLevel i.bufsizeCyclic fuel (junk c) c pend with
    | .error .failed => some (false, w)
    | .error .running => none
    | .ok s =>
      match writeWindow i c s.buf w with
      | (false, w) => some (false, w)
      | (true, w) => writeWindows m fuel junk cs (s.excludePfnStart, s.excludePfnEnd) w

def writeKdumpPagesAndBitmapCyclic (m : Image) (fuel : Nat) (junk : Junk) (o : Out) :
    Option (Bool × Out) :=
  match writeZeroPage i (initialWriter i o) with
  | (false, w) => some (false, w.out)
  | (true, w) =>
    match tryEach (writeBitmap1 i m w.offsetBitmap1) i.cycles w.out with
    | (false, out) => some (false, out)
    | (true, out) =>
      (writeWindows i m fuel junk i.cycles (0, 0) { w with out }).map fun
        | (false, w) => (false, w.out)
        | (true, w) =>
          let (ok, w) := writeRemainder i w
          (ok, w.out)

/-- `writeout_dumpfile`, from the empty file. -/
def writeoutDumpfile (m : Image) (fuel : Nat) (junk : Junk) (o : Out) : Option (Bool × Out) :=
  match writeKdumpHeader i o with
  | (false, o) => some (false, o)
  | (true, o) => writeKdumpPagesAndBitmapCyclic i m fuel junk o

/-! ## One level after the other -/

/-- A new file: what is left are the answers of the kernel to come and the count of bytes. -/
def openDumpFile (o : Out) : Out := { sys := o.sys, writeBytes := o.writeBytes }

/-- `create_dumpfile` from the label `retry` on, with the dump levels that are left. `junk` are the
page buffers of the two passes, for each try. -/
def createDumpfile (junk : Nat → Junk × Junk) : Nat → List Nat → Out → Option (Bool × Out)
  | _, [], o => some (false, o)
  | numRetry, level :: levels, o =>
    match getNumDumpableCyclic su level (junk numRetry).1 with
    | none => none
    | some 0 => some (false, o)
    | some (n + 1) =>
      match writeoutDumpfile (su.infoAt level (n + 1)) su.image su.fuel (junk numRetry).2
        (openDumpFile o) with
      | none => none
      | some (true, o) => some (true, o)
      | some (false, o) =>
        if o.flagNospace then createDumpfile junk (numRetry + 1) levels o else some (false, o)

end Dumpfile
