import Makedumpfile.Lib.Rho

/-!
# Cycle detection

`detect_cycle.c`, Brent's algorithm: the list is walked by `dc_next`, which compares each entry with
an anchor; the anchor is moved to the entry reached whenever the distance from it is `power`, and
`power` is doubled. `dc_find_start` finds where the cycle begins.

The private data passed to `next` is part of the function `next` here. `length` and `power` are
`unsigned long`; they stay below `2 * (n + 2)` in a list of `n` entries (`DcInv.power_le`).
-/

namespace Dmesg

variable {α : Type*} [DecidableEq α] (next : α → α)

/-- `struct detect_cycle`. -/
structure DetectCycle (α : Type*) where
  head : α
  fastP : α
  slowP : α
  length : Nat
  power : Nat
  deriving Repr, DecidableEq

def dcInit (head : α) : DetectCycle α :=
  { head, slowP := head, fastP := head, length := 0, power := 2 }

/-- The anchor is moved when the distance from it is `power`. -/
def DetectCycle.moveAnchor (dc : DetectCycle α) : DetectCycle α :=
  if dc.length = dc.power then { dc with length := 0, power := dc.power * 2, slowP := dc.fastP }
  else dc

/-- The next entry, or `none` when `dc_next` returns 1: there is a cycle. -/
def dcNext (dc : DetectCycle α) : Option α × DetectCycle α :=
  let dc := dc.moveAnchor
  let dc := { dc with fastP := next dc.fastP, length := dc.length + 1 }
  (if dc.slowP = dc.fastP then none else some dc.fastP, dc)

/-- The second loop of `dc_find_start`, `fuel` rounds of it. -/
def findStartLoop (slowP fastP : α) : Nat → Option α
  | 0 => none
  | fuel + 1 =>
    if slowP ≠ fastP then findStartLoop (next slowP) (next fastP) fuel else some slowP

/-- The first entry of the cycle and its length. -/
def dcFindStart (dc : DetectCycle α) (fuel : Nat) : Option (α × Nat) :=
  (findStartLoop next dc.head (next^[dc.length] dc.head) fuel).map fun first => (first, dc.length)

/-- The state after `k` calls of `dc_next`. -/
def dcAfter (head : α) : Nat → DetectCycle α
  | 0 => dcInit head
  | k + 1 => (dcNext next (dcAfter head k)).2

/-- What the call after `k` calls of `dc_next` gives. -/
def dcCall (head : α) (k : Nat) : Option α := (dcNext next (dcAfter next head k)).1

end Dmesg
