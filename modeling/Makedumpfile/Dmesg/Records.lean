import Makedumpfile.Dmesg.DetectCycle
import Makedumpfile.Dmesg.Text

/-!
# The variable-length record buffer

`dump_dmesg` for the kernels from 3.5 on whose log is a buffer of records. A record is reached from
the one before it by its length; a record of length 0 marks the end of the buffer and stands for the
record at the start. The walk ends at `log_next_idx`. The cycle detector runs along: when it reports,
the output is started again, and the second loop writes the chain up to the end of the cycle's first
round.

A pointer is its distance from `log_buffer`. A loop is given a number of rounds and returns `none`
when they are used up. Writing, truncating and closing the file succeed.
-/

namespace Dmesg

open Lib

/-- `log_buffer` and the offsets in a `printk_log`; there is no `caller_id` in older kernels. -/
structure Log where
  buf : ByteFile
  bigendian : Bool := false
  size : Nat
  tsNsec : Nat
  len : Nat
  textLen : Nat
  callerId : Option Nat := none
  deriving Repr, DecidableEq

variable (g : Log)

def Log.ushort (p : Nat) : Nat := hostNat g.bigendian (ByteFile.pread g.buf p 2)

def Log.uint (p : Nat) : Nat := hostNat g.bigendian (ByteFile.pread g.buf p 4)

def Log.ulonglong (p : Nat) : Nat := hostNat g.bigendian (ByteFile.pread g.buf p 8)

/-- `USHORT(logptr + OFFSET(printk_log.len))`. -/
def Log.msglen (p : Nat) : Nat := g.ushort (p + g.len)

def dumpLogEntry (p : Nat) : List UInt8 :=
  logLine (g.ulonglong (p + g.tsNsec)) (g.callerId.map fun o => g.uint (p + o))
    (ByteFile.pread g.buf (p + g.size) (g.ushort (p + g.textLen)))

def logFromPtr (p : Nat) : Nat := if g.msglen p = 0 then 0 else p

def logNext (p : Nat) : Nat := if g.msglen p = 0 then 0 + g.msglen 0 else p + g.msglen p

/-- The pointer is in the checked range. -/
def Log.inRange (p : Nat) : Prop := (p : Int) ≤ g.buf.length - g.size

instance (p : Nat) : Decidable (g.inRange p) := inferInstanceAs (Decidable (_ ≤ _))

/-- The second loop, which writes up to the corruption: `len` counts down from where the record
written is `first`. -/
def writeToCorruption (first : Nat) : Nat → Nat → Bool → Nat → List UInt8 → Option (List UInt8)
  | _, _, _, 0, out => some out
  | 0, _, _, _ + 1, _ => none
  | fuel + 1, ptr, inCycle, len + 1, out =>
    let logPtr := logFromPtr g ptr
    let inCycle := inCycle || logPtr == first
    writeToCorruption first fuel (logNext g ptr) inCycle (if inCycle then len else len + 1)
      (out ++ dumpLogEntry g logPtr)

/-- How the walk ends. -/
inductive WalkEnd where
  | done
  | cycle
  | outside
  deriving Repr, DecidableEq

/-- The walk from `ptr` to `log_next_idx`: how it ends and what is then in the file. -/
def walk (firstIdx nextIdx : Nat) :
    Nat → Nat → DetectCycle Nat → List UInt8 → Option (WalkEnd × List UInt8)
  | 0, _, _, _ => none
  | fuel + 1, ptr, dc, out =>
    if ptr = nextIdx then some (.done, out)
    else
      let out := out ++ dumpLogEntry g (logFromPtr g ptr)
      match dcNext (logNext g) dc with
      | (none, dc) =>
        (dcFindStart (logNext g) dc fuel).bind fun (first, len) =>
          (writeToCorruption g first fuel firstIdx false len []).map fun out => (.cycle, out)
      | (some nextPtr, dc) =>
        if ¬ g.inRange nextPtr then some (.outside, out)
        else walk firstIdx nextIdx fuel nextPtr dc out

/-- The record walk of `dump_dmesg`. It returns TRUE only at the end `done`. -/
def dumpDmesg (firstIdx nextIdx fuel : Nat) : Option (WalkEnd × List UInt8) :=
  walk g firstIdx nextIdx fuel firstIdx (dcInit firstIdx) []

end Dmesg
