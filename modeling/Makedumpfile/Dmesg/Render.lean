import Makedumpfile.Dmesg.Records
import Makedumpfile.Dmesg.Lockless

/-!
# The buffer of a log line

`dump_log_entry` and `dump_record` collect a line in `buf[BUFSIZE]` and write the buffer out before a
character that may not fit any more: `buf_need` is what the longest one takes. The two loops are the
same; the variables are `unsigned int` in one function and `int` in the other, and both hold the same
small numbers. A store behind the end of the buffer gives `none`; the writes succeed.
-/

namespace Dmesg

open Lib

def bufsize : Nat := 1024

/-- `buf` up to `bufp`, and what was written. -/
structure LineBuf where
  buf : List UInt8 := []
  out : List (List UInt8) := []
  deriving Repr, DecidableEq

/-- Characters are stored at `bufp`, with `nul` bytes behind them. -/
def LineBuf.store (r : LineBuf) (s : List UInt8) (nul : Nat) : Option LineBuf :=
  if r.buf.length + s.length + nul ≤ bufsize then some { r with buf := r.buf ++ s } else none

/-- `bufp += sprintf(bufp, …)`, with the terminating NUL. -/
def LineBuf.sprintf (r : LineBuf) (s : List UInt8) : Option LineBuf := r.store s 1

/-- `write_and_check_space(…, buf, bufp - buf, …)`. -/
def LineBuf.flush (r : LineBuf) : LineBuf := { buf := [], out := r.out ++ [r.buf] }

/-- `MAX(sizeof("\\xXX\n"), sizeof("\n") + indent_len)`. -/
def bufNeed (indentLen : Nat) : Nat := max 6 (2 + indentLen)

/-- The body of the loop. -/
def putChar (indentLen : Nat) (r : LineBuf) (b : UInt8) : Option LineBuf :=
  let r := if r.buf.length ≥ bufsize - bufNeed indentLen then r.flush else r
  if b = 0x0a then r.sprintf (0x0a :: ascii (List.replicate indentLen ' '))
  else if isprint b || isspace b then r.store [b] 0
  else r.sprintf (ascii (['\\', 'x'] ++ hex b))

/-- What a line is made from. -/
structure LineInput where
  tsNsec : Nat
  callerId : Option Nat
  text : List UInt8
  deriving Repr, DecidableEq

/-- The time stamp, and the caller if it is known. -/
def putPrefix (i : LineInput) : Option LineBuf := do
  let r ← ({} : LineBuf).sprintf (ascii (timeStamp i.tsNsec))
  match i.callerId with
  | some cid => r.sprintf (ascii (caller cid))
  | none => return r

/-- The pieces that are written. -/
def writeLine (i : LineInput) : Option (List (List UInt8)) := do
  let r ← putPrefix i
  let indentLen := r.buf.length
  let r ← i.text.foldlM (putChar indentLen) r
  let r ← r.store [0x0a] 0
  return r.flush.out

/-- What `dump_log_entry` takes from the record at `logptr`. -/
def logEntryInput (g : Log) (p : Nat) : LineInput where
  tsNsec := g.ulonglong (p + g.tsNsec)
  callerId := g.callerId.map fun o => g.uint (p + o)
  text := ByteFile.pread g.buf (p + g.size) (g.ushort (p + g.textLen))

/-- `dump_log_entry`. -/
def dumpLogEntryPieces (g : Log) (p : Nat) : Option (List (List UInt8)) := writeLine (logEntryInput g p)

/-- What `dump_record` takes from the rings; `none` when the record is skipped. -/
def recordInput (m : PrbMap) (id : Nat) : Option LineInput :=
  (textSpan m id).map fun (begin, textLen) =>
    { tsNsec := m.read m.infos (m.info id + m.tsNsec) 8
      callerId := m.callerId.map fun o => m.read m.infos (m.info id + o) 4
      text := ByteFile.pread m.textData begin textLen }

/-- `dump_record`. -/
def dumpRecordPieces (m : PrbMap) (id : Nat) : Option (List (List UInt8)) :=
  match recordInput m id with
  | none => some []
  | some i => writeLine i

end Dmesg
