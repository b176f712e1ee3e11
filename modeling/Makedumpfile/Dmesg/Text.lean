import Makedumpfile.Lib.ByteFile
import Makedumpfile.Lib.Endian

/-!
# The lines of the log

`dump_log_entry` and `dump_record` print a message in the same way: the time stamp, the caller if the
kernel has it, and the text, with the lines after the first one indented and other control characters
escaped. Their buffer is written out whenever it may not hold the next character; the file gets the
pieces one after the other.
-/

namespace Dmesg

open Lib

/-- The bytes of ASCII text. -/
def ascii (s : List Char) : List UInt8 := s.map fun c => UInt8.ofNat c.toNat

/-- A number or text, filled up on the left to a width. -/
def padLeft (fill : Char) (width : Nat) (s : List Char) : List Char :=
  List.replicate (width - s.length) fill ++ s

/-- `"[%5lld.%06ld] "`. -/
def timeStamp (tsNsec : Nat) : List Char :=
  let nanos := tsNsec / 1000000000
  let rem := tsNsec % 1000000000
  ['['] ++ padLeft ' ' 5 (Nat.toDigits 10 nanos) ++ ['.'] ++
    padLeft '0' 6 (Nat.toDigits 10 (rem / 1000)) ++ [']', ' ']

def pidCharsDefault : Nat := 8

/-- `"[%*s] "` of `"%c%u"`: bit 31 tells a CPU from a task. -/
def caller (cid : Nat) : List Char :=
  let cidbuf := (if cid.testBit 31 then 'C' else 'T') :: Nat.toDigits 10 (cid % 2 ^ 31)
  ['['] ++ padLeft ' ' pidCharsDefault cidbuf ++ [']', ' ']

def isprint (b : UInt8) : Bool := 0x20 ≤ b && b ≤ 0x7e

def isspace (b : UInt8) : Bool := (0x09 ≤ b && b ≤ 0x0d) || b = 0x20

/-- `"%02x"` of a `char`, which is signed: from 0x80 on it is printed as a negative `int`. -/
def hex (b : UInt8) : List Char :=
  padLeft '0' 2 (Nat.toDigits 16 (if b < 0x80 then b.toNat else b.toNat + (2 ^ 32 - 2 ^ 8)))

/-- One character of the text. -/
def escape (indentLen : Nat) (b : UInt8) : List UInt8 :=
  if b = 0x0a then 0x0a :: ascii (List.replicate indentLen ' ')
  else if isprint b || isspace b then [b]
  else ascii (['\\', 'x'] ++ hex b)

/-- The line of a message. -/
def logLine (tsNsec : Nat) (cid : Option Nat) (msg : List UInt8) : List UInt8 :=
  let start := ascii (timeStamp tsNsec ++ (cid.map caller).getD [])
  start ++ msg.flatMap (escape start.length) ++ [0x0a]

theorem logLine_ne_nil (tsNsec : Nat) (cid : Option Nat) (msg : List UInt8) :
    logLine tsNsec cid msg ≠ [] := by simp [logLine]

end Dmesg
