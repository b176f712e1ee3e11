import Makedumpfile.Dmesg.Records

/-!
# Reads of the record buffer

Which bytes of `log_buffer` the record walk of `dump_dmesg` reads. A read is its index and the number
of bytes; the functions follow those of `Dmesg.Records` and give the reads of the first rounds.
-/

namespace Dmesg

open Lib

variable (g : Log)

/-- `log_from_ptr`. -/
def fromPtrReads (p : Nat) : List (Nat × Nat) := [(p + g.len, 2)]

/-- `log_next`; at a wrap marker also the length of the record at the start. -/
def nextReads (p : Nat) : List (Nat × Nat) :=
  (p + g.len, 2) :: if g.msglen p = 0 then [(0 + g.len, 2)] else []

/-- `dump_log_entry`: the fields and the text. -/
def entryReads (r : Nat) : List (Nat × Nat) :=
  [(r + g.textLen, 2), (r + g.tsNsec, 8)] ++ (g.callerId.map fun o => (r + o, 4)).toList ++
    [(r + g.size, g.ushort (r + g.textLen))]

/-- The second loop of `dc_find_start`. -/
def findStartLoopReads (slowP fastP : Nat) : Nat → List (Nat × Nat)
  | 0 => []
  | fuel + 1 =>
    if slowP ≠ fastP then
      nextReads g slowP ++ nextReads g fastP ++
        findStartLoopReads (logNext g slowP) (logNext g fastP) fuel
    else []

/-- `dc_find_start`. -/
def findStartReads (dc : DetectCycle Nat) (fuel : Nat) : List (Nat × Nat) :=
  (List.range dc.length).flatMap (fun i => nextReads g ((logNext g)^[i] dc.head)) ++
    findStartLoopReads g dc.head ((logNext g)^[dc.length] dc.head) fuel

/-- The second loop of `dump_dmesg`. -/
def corruptionReads (first : Nat) : Nat → Nat → Bool → Nat → List (Nat × Nat)
  | _, _, _, 0 => []
  | 0, _, _, _ + 1 => []
  | fuel + 1, ptr, inCycle, len + 1 =>
    let logPtr := logFromPtr g ptr
    let inCycle := inCycle || logPtr == first
    fromPtrReads g ptr ++ entryReads g logPtr ++ nextReads g ptr ++
      corruptionReads first fuel (logNext g ptr) inCycle (if inCycle then len else len + 1)

/-- The first loop. -/
def walkReads (firstIdx nextIdx : Nat) : Nat → Nat → DetectCycle Nat → List (Nat × Nat)
  | 0, _, _ => []
  | fuel + 1, ptr, dc =>
    if ptr = nextIdx then []
    else
      fromPtrReads g ptr ++ entryReads g (logFromPtr g ptr) ++ nextReads g ptr ++
        nextReads g dc.fastP ++
      match dcNext (logNext g) dc with
      | (none, dc) =>
        findStartReads g dc fuel ++
          match dcFindStart (logNext g) dc fuel with
          | none => []
          | some (first, len) => corruptionReads g first fuel firstIdx false len
      | (some nextPtr, dc) =>
        if ¬ g.inRange nextPtr then [] else walkReads firstIdx nextIdx fuel nextPtr dc

/-- The reads of the record walk of `dump_dmesg`. -/
def dumpDmesgReads (firstIdx nextIdx fuel : Nat) : List (Nat × Nat) :=
  walkReads g firstIdx nextIdx fuel firstIdx (dcInit firstIdx)

end Dmesg
