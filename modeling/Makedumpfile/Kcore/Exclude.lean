import Makedumpfile.Lib.Endian

/-!
# The dump loads of /proc/kcore

`get_kcore_dump_loads` keeps the segments of physical memory and takes the memory reserved for the
crash kernel out of them, range by range. `exclude_segment` finds the segments that a range overlaps by
their virtual addresses; it cuts the end off, the head off, or splits the segment. The part behind a
split is put into the table when all segments are done.
-/

namespace Kcore

open Lib

/-- `struct pt_load_segment`. -/
structure PtLoadSegment where
  physStart : Nat
  physEnd : Nat
  virtStart : Nat
  virtEnd : Nat
  fileOffset : Nat
  fileSize : Nat
  deriving Repr, DecidableEq

section

variable (pageOffset : Nat)

/-- `paddr_to_vaddr_general`. -/
def paddrToVaddr (paddr : Nat) : Nat := (paddr + pageOffset) % 2 ^ 64

variable (start end_ : Nat)

def Overlaps (s : PtLoadSegment) : Prop :=
  paddrToVaddr pageOffset start < s.virtEnd ∧ paddrToVaddr pageOffset end_ > s.virtStart

/-- The first branch for an overlapped segment. -/
def Splits (s : PtLoadSegment) : Prop :=
  Overlaps pageOffset start end_ s ∧
    paddrToVaddr pageOffset start ≠ s.virtStart ∧ paddrToVaddr pageOffset end_ ≠ s.virtEnd

instance : DecidablePred (Overlaps pageOffset start end_) := fun _ =>
  inferInstanceAs (Decidable (_ ∧ _))

instance : DecidablePred (Splits pageOffset start end_) := fun _ =>
  inferInstanceAs (Decidable (_ ∧ _))

/-- `temp_seg` for a segment that is split. -/
def tempSeg (s : PtLoadSegment) : PtLoadSegment :=
  let kvend := paddrToVaddr pageOffset end_
  { physStart := end_
    physEnd := s.physEnd
    virtStart := kvend
    virtEnd := s.virtEnd
    fileOffset := u64sub ((s.fileOffset + kvend) % 2 ^ 64) s.virtStart
    fileSize := u64sub s.physEnd end_ }

section

variable (s : PtLoadSegment)

@[simp] theorem tempSeg_physStart : (tempSeg pageOffset end_ s).physStart = end_ := by
  simp only [tempSeg]

@[simp] theorem tempSeg_physEnd : (tempSeg pageOffset end_ s).physEnd = s.physEnd := by
  simp only [tempSeg]

@[simp] theorem tempSeg_virtStart :
    (tempSeg pageOffset end_ s).virtStart = paddrToVaddr pageOffset end_ := by
  simp only [tempSeg]

@[simp] theorem tempSeg_virtEnd : (tempSeg pageOffset end_ s).virtEnd = s.virtEnd := by
  simp only [tempSeg]

@[simp] theorem tempSeg_fileOffset : (tempSeg pageOffset end_ s).fileOffset =
    u64sub ((s.fileOffset + paddrToVaddr pageOffset end_) % 2 ^ 64) s.virtStart := by
  simp only [tempSeg]

@[simp] theorem tempSeg_fileSize :
    (tempSeg pageOffset end_ s).fileSize = u64sub s.physEnd end_ := by
  simp only [tempSeg]

end

/-- What a segment of the table becomes. -/
def cutSegment (s : PtLoadSegment) : PtLoadSegment :=
  let kvstart := paddrToVaddr pageOffset start
  let kvend := paddrToVaddr pageOffset end_
  if Overlaps pageOffset start end_ s then
    if Splits pageOffset start end_ s then
      { s with
        virtEnd := kvstart
        physEnd := start
        fileSize := u64sub (u64sub s.fileSize (tempSeg pageOffset end_ s).fileSize)
          (u64sub end_ start) }
    else if kvstart ≠ s.virtStart then
      { s with physEnd := start, virtEnd := kvstart, fileSize := u64sub s.fileSize (u64sub end_ start) }
    else
      { s with physStart := end_, virtStart := kvend, fileSize := u64sub s.fileSize (u64sub end_ start) }
  else s

/-- The loop from segment `i` on, with `tidx` and `temp_seg` of the last split. -/
def excludeLoop : Nat → Option (Nat × PtLoadSegment) → List PtLoadSegment →
    List PtLoadSegment × Option (Nat × PtLoadSegment)
  | _, temp, [] => ([], temp)
  | i, temp, s :: l =>
    let temp := if Splits pageOffset start end_ s then some (i + 1, tempSeg pageOffset end_ s) else temp
    let r := excludeLoop (i + 1) temp l
    (cutSegment pageOffset start end_ s :: r.1, r.2)

def excludeSegment (loads : List PtLoadSegment) : List PtLoadSegment :=
  match excludeLoop pageOffset start end_ 0 none loads with
  | (l, none) => l
  | (l, some (tidx, temp)) => l.take tidx ++ temp :: l.drop tidx

end

/-- `exclude_segment` for one range `[start, end)` after the other. -/
def excludeAll (pageOffset : Nat) (loads : List PtLoadSegment) (ranges : List (Nat × Nat)) :
    List PtLoadSegment :=
  ranges.foldl (fun l r => excludeSegment pageOffset r.1 r.2 l) loads

/-- The offset of a physical address in the file, 0 when it has none. -/
def paddrToOffset (loads : List PtLoadSegment) (paddr : Nat) : Nat :=
  match loads.find? fun s =>
    s.physStart ≤ paddr ∧ paddr < (s.physStart + s.fileSize) % 2 ^ 64 with
  | some s => (paddr - s.physStart + s.fileOffset) % 2 ^ 64
  | none => 0

/-- `NOT_PADDR` -/
def notPaddr : Nat := 2 ^ 64 - 1

/-- The new table and `max_file_offset`; `reserved` has the first and the last address of every
range. -/
def getKcoreDumpLoads (pageOffset : Nat) (isPhysAddr : Nat → Bool) (loads : List PtLoadSegment)
    (reserved : List (Nat × Nat)) : Option (List PtLoadSegment × Nat) :=
  let pls := loads.filter fun s => s.physStart ≠ notPaddr ∧ isPhysAddr s.physStart = true
  if pls = [] then none
  else
    let pls := excludeAll pageOffset pls (reserved.map fun r => (r.1, (r.2 + 1) % 2 ^ 64))
    some (pls, pls.foldl
      (fun m s => max m (u64sub ((s.fileOffset + s.physEnd) % 2 ^ 64) s.physStart)) 0)

end Kcore
