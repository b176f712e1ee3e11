import Makedumpfile.Lib.Endian
import Makedumpfile.Readmem.Vmcore

/-!
# readpage_elf in machine arithmetic

`readpageElf` of `Readmem.Vmcore` takes sizes as natural numbers. In the source a size is an `off_t`:
it is compared with the room in the buffer as a signed number, so a size from 2^63 on counts as
negative and is not cut to the room. A `memset` with it goes over the end of the buffer; a `read` with
it is refused, and its -1 is compared with the size again. Here a write outside the buffer, and a
loop that does not move on, are ends of the function of their own.
-/

namespace Readmem

open Lib

/-- How reading a page ends without data. -/
inductive Stop where
  | fails
  | overrun
  | stuck
  deriving Repr, DecidableEq

variable (v : Vmcore)

/-- `if (size > endp - p) size = endp - p;` -/
def clampSize (size room : Nat) : Nat := if i64 size > room then room else size

/-- `read_from_vmcore` at `offset + d`. `lseek` fails at a negative offset, and `read` at a negative
count, with -1: for the count 2^64 - 1 this looks like a complete read. -/
def readFile (p : PtLoad) (d size : Nat) : Except Stop (List UInt8) :=
  let offset := (p.fileOffset + d) % 2 ^ 64
  if offset ≥ 2 ^ 63 then .error .fails
  else if size ≥ 2 ^ 63 then .error (if size = 2 ^ 64 - 1 then .overrun else .fails)
  else
    match readFromVmcore v offset size with
    | none => .error .fails
    | some b => .ok b

/-- The part of the segment from `paddr` on that is in the file. -/
def filePart (p : PtLoad) (paddr room : Nat) : Except Stop (List UInt8) :=
  let d := paddr - p.physStart
  if p.fileSize > d then readFile v p d (clampSize (p.fileSize - d) room) else .ok []

/-- The part from `paddr` on that is only in memory. -/
def zeroPart (p : PtLoad) (paddr room : Nat) : Except Stop (List UInt8) :=
  if 0 < room then
    let size := clampSize (p.physEnd - paddr) room
    if size > room then .error .overrun else .ok (List.replicate size 0)
  else .ok []

/-- What a round of the loop puts into the buffer. -/
def piece (p : PtLoad) (paddr n : Nat) : Except Stop (List UInt8) :=
  let gap := p.physStart - paddr
  (filePart v p (paddr + gap) (n - gap)).bind fun f =>
    (zeroPart p (paddr + gap + f.length) (n - gap - f.length)).map fun z =>
      List.replicate gap 0 ++ f ++ z

/-- The loop, for the next `n` bytes of the page. -/
def pageLoop (paddr n : Nat) : Except Stop (List UInt8) :=
  if n = 0 then .ok []
  else
    match closestPtLoad v paddr n with
    | none => .ok []
    | some p =>
      match piece v p paddr n with
      | .error e => .error e
      | .ok b =>
        if b.length = 0 then .error .stuck
        else (pageLoop (paddr + b.length) (n - b.length)).map (b ++ ·)
termination_by n
decreasing_by omega

/-- `readpage_elf`; it returns FALSE as `.error .fails`. -/
def readpage (paddr : Nat) : Except Stop (List UInt8) :=
  (pageLoop v paddr v.pageSize).bind fun b =>
    if b = [] then .error .fails else .ok (b ++ List.replicate (v.pageSize - b.length) 0)

end Readmem
