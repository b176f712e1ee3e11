import Makedumpfile.Dmesg.Text

/-!
# The lockless ring buffer

`printk.c`: the descriptors of the records are a ring that is indexed by the record's id, and the
texts are in a ring of their own. `dump_lockless_dmesg` prints the records from the tail to the head,
or with `--partial-dmesg` from the place in the head's lap that `clear_seq` has in the ring.

The rings as read from the dump are the input. A loop is given a number of rounds and returns `none`
when they are used up; writing the file succeeds.
-/

namespace Dmesg

open Lib

/-- `struct prb_map` with the sizes and offsets in the descriptors, and the number of entries and the
size of the rings, powers of two that an `int` holds. -/
structure PrbMap where
  bigendian : Bool := false
  countBits : Nat
  countBits_le : countBits ≤ 30
  descs : ByteFile
  descSize : Nat
  stateVar : Nat
  lposBegin : Nat
  lposNext : Nat
  infos : ByteFile
  infoSize : Nat
  tsNsec : Nat
  textLen : Nat
  callerId : Option Nat := none
  sizeBits : Nat
  sizeBits_le : sizeBits ≤ 30
  textData : ByteFile

/-- A ring of one entry. -/
theorem one_entry_bits : 0 ≤ 30 := by decide

variable (m : PrbMap)

def PrbMap.descRingCount : Nat := 1 <<< m.countBits

def PrbMap.textDataRingSize : Nat := 1 <<< m.sizeBits

def PrbMap.read (f : ByteFile) (p n : Nat) : Nat := hostNat m.bigendian (ByteFile.pread f p n)

/-! ## A record -/

inductive DescState where
  | miss
  | reserved
  | committed
  | finalized
  | reusable
  deriving Repr, DecidableEq

/-- `DESC_STATE(sv)`: the two highest bits. -/
def descState (sv : Nat) : DescState :=
  match sv / 2 ^ 62 % 4 with
  | 0 => .reserved
  | 1 => .committed
  | 2 => .finalized
  | _ => .reusable

def getDescState (id sv : Nat) : DescState := if id ≠ sv % 2 ^ 62 then .miss else descState sv

/-- The place of a record's descriptor and of its `printk_info`. -/
def PrbMap.desc (id : Nat) : Nat := id % m.descRingCount * m.descSize

def PrbMap.info (id : Nat) : Nat := id % m.descRingCount * m.infoSize

/-- Where the text block begins and ends in the ring. A block that wraps has its text at the start of
the ring. A record that is not committed, or that has no text, is skipped. -/
def textBlock (id : Nat) : Option (Nat × Nat) :=
  let desc := m.desc id
  let state := getDescState id (m.read m.descs (desc + m.stateVar) 8)
  if state ≠ .committed ∧ state ≠ .finalized then none
  else
    let begin := m.read m.descs (desc + m.lposBegin) 8 % m.textDataRingSize
    let next := m.read m.descs (desc + m.lposNext) 8 % m.textDataRingSize
    if begin = next then none
    else some (if begin > next then 0 else begin, next)

/-- `text_len` of the `printk_info`. -/
def infoTextLen (id : Nat) : Nat := m.read m.infos (m.info id + m.textLen) 2

/-- Where the message text begins and how long it is taken to be. The descriptor id before it is
skipped, and a message that was truncated is cut. -/
def textSpan (id : Nat) : Option (Nat × Nat) :=
  (textBlock m id).map fun (begin, next) =>
    let begin := begin + 8
    let textLen := infoTextLen m id
    (begin, if u64sub next begin < textLen then u64sub next begin else textLen)

/-- `dump_record`: what it writes. -/
def dumpRecord (id : Nat) : List UInt8 :=
  match textSpan m id with
  | none => []
  | some (begin, textLen) =>
    logLine (m.read m.infos (m.info id + m.tsNsec) 8)
      (m.callerId.map fun o => m.read m.infos (m.info id + o) 4)
      (ByteFile.pread m.textData begin textLen)

/-! ## The loop over the records -/

/-- The loop from `id` to the head, and the head. -/
def visitIds (headId : Nat) : Nat → Nat → Option (List Nat)
  | 0, _ => none
  | fuel + 1, id =>
    if id ≠ headId then (visitIds headId fuel ((id + 1) % 2 ^ 62)).map (id :: ·) else some [id]

/-- Where the loop starts: at the tail, or where `clear_seq` is in the lap of the head. -/
def startId (tailId headId : Nat) (clearSeq : Option Nat) : Nat :=
  match clearSeq with
  | none => tailId
  | some clearSeq => headId - headId % m.descRingCount + clearSeq % m.descRingCount

/-- `dump_lockless_dmesg`; `clearSeq` is given with `--partial-dmesg`. -/
def dumpLocklessDmesg (tailId headId : Nat) (clearSeq : Option Nat) (fuel : Nat) :
    Option (List UInt8) :=
  (visitIds headId fuel (startId m tailId headId clearSeq)).map (·.flatMap (dumpRecord m))

end Dmesg
