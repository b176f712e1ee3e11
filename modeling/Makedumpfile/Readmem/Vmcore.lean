import Makedumpfile.Lib.ByteFile

/-!
# Pages of an ELF vmcore

The table `pt_loads` of `elf_info.c` with its lookups, and `readpage_elf`, which collects a page
from the segments that hold parts of it and fills the rest with zeros.
-/

namespace Readmem

open Lib

/-- `struct pt_load_segment`, physical part. -/
structure PtLoad where
  physStart : Nat
  physEnd : Nat
  fileOffset : Nat
  fileSize : Nat
  deriving Repr, DecidableEq

/-- The input: its bytes, `pt_loads` and the page size, a power of two up to 4 MiB. -/
structure Vmcore where
  pageSize : Nat
  loads : List PtLoad
  file : ByteFile
  pageSize_dvd : pageSize ∣ 2 ^ 22

theorem Vmcore.pageSize_pos (v : Vmcore) : 0 < v.pageSize :=
  Nat.pos_of_dvd_of_pos v.pageSize_dvd (by decide)

/-- The pages of most machines. -/
theorem dvd_four_kib : 4096 ∣ 2 ^ 22 := ⟨1024, rfl⟩

variable (v : Vmcore)

/-- The offset of a physical address in the file, 0 when it has none. -/
def paddrToOffset (paddr : Nat) : Nat :=
  match v.loads.find? fun p => p.physStart ≤ paddr ∧ paddr < p.physStart + p.fileSize with
  | some p => paddr - p.physStart + p.fileOffset
  | none => 0

/-- The end of the segment that the offset belongs to; the segment is taken to have its size in
memory also in the file. -/
def offsetToPtLoadEnd (offset : Nat) : Nat :=
  match v.loads.find? fun p =>
    p.fileOffset ≤ offset ∧ offset < p.fileOffset + (p.physEnd - p.physStart) with
  | some p => p.fileOffset + (p.physEnd - p.physStart)
  | none => 0

def pageIsFractional (pageOffset : Nat) : Bool :=
  pageOffset % v.pageSize ≠ 0 ∨
    (offsetToPtLoadEnd v pageOffset : Int) - pageOffset < v.pageSize

def maxFileOffset : Nat :=
  v.loads.foldl (fun m p => max m (p.fileOffset + p.physEnd - p.physStart)) 0

/-- The loop of `closest_pt_load`. -/
def closestLoop (paddr : Nat) : Nat → Option PtLoad → List PtLoad → Option PtLoad
  | _, best, [] => best
  | bestdist, best, p :: ps =>
    if p.physEnd ≤ paddr then closestLoop paddr bestdist best ps
    else if p.physStart ≤ paddr then some p
    else if bestdist > p.physStart - paddr then closestLoop paddr (p.physStart - paddr) (some p) ps
    else closestLoop paddr bestdist best ps

def closestPtLoad (paddr distance : Nat) : Option PtLoad := closestLoop paddr distance none v.loads

theorem closestLoop_spec {paddr : Nat} : ∀ {l : List PtLoad} {d : Nat} {best : Option PtLoad}
    {p : PtLoad}, closestLoop paddr d best l = some p →
    best = some p ∨ (p ∈ l ∧ paddr < p.physEnd ∧ p.physStart - paddr < max d 1)
  | [], _, _, _, h => .inl h
  | q :: l, d, best, p, h => by
    unfold closestLoop at h
    split at h
    · rcases closestLoop_spec h with h | ⟨h1, h2, h3⟩
      · exact .inl h
      · exact .inr ⟨List.mem_cons_of_mem _ h1, h2, h3⟩
    · split at h
      · cases h
        exact .inr ⟨List.mem_cons_self, by omega, by omega⟩
      · split at h
        · rcases closestLoop_spec h with h | ⟨h1, h2, h3⟩
          · cases h
            exact .inr ⟨List.mem_cons_self, by omega, by omega⟩
          · exact .inr ⟨List.mem_cons_of_mem _ h1, h2, by omega⟩
        · rcases closestLoop_spec h with h | ⟨h1, h2, h3⟩
          · exact .inl h
          · exact .inr ⟨List.mem_cons_of_mem _ h1, h2, h3⟩

theorem closestPtLoad_spec {v : Vmcore} {paddr n : Nat} {p : PtLoad} (hn : 0 < n)
    (h : closestPtLoad v paddr n = some p) :
    p ∈ v.loads ∧ paddr < p.physEnd ∧ p.physStart - paddr < n := by
  rcases closestLoop_spec h with h | ⟨h1, h2, h3⟩
  · cases h
  · exact ⟨h1, h2, by omega⟩

/-- `lseek` and a complete `read`. -/
def readFromVmcore (offset size : Nat) : Option (List UInt8) :=
  let b := v.file.pread offset size
  if b.length = size then some b else none

/-- The loop of `readpage_elf`: the bytes of the next `n` bytes of the page from `paddr` on that a
segment holds or precedes. It stops where no segment follows. -/
def readpageLoop (paddr n : Nat) : Option (List UInt8) :=
  if _hn : n = 0 then some []
  else
    match _h : closestPtLoad v paddr n with
    | none => some []
    | some p =>
      -- the gap before the segment
      let gap := p.physStart - paddr
      let paddr := paddr + gap
      let off := p.fileOffset + (paddr - p.physStart)
      -- the part in the file, then the part that is only in memory
      let inFile := min (p.fileSize - (paddr - p.physStart)) (n - gap)
      let zeros := min (p.physEnd - (paddr + inFile)) (n - gap - inFile)
      match (if inFile = 0 then some [] else readFromVmcore v off inFile) with
      | none => none
      | some b =>
        (readpageLoop (paddr + inFile + zeros) (n - gap - inFile - zeros)).map fun rest =>
          List.replicate gap 0 ++ b ++ List.replicate zeros 0 ++ rest
termination_by n
decreasing_by
  obtain ⟨-, h1, h2⟩ := closestPtLoad_spec (Nat.pos_of_ne_zero _hn) _h
  omega

def readpageElf (paddr : Nat) : Option (List UInt8) :=
  (readpageLoop v paddr v.pageSize).bind fun b =>
    if b = [] then none else some (b ++ List.replicate (v.pageSize - b.length) 0)

end Readmem
