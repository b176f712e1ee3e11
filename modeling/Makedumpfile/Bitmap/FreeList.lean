import Mathlib.Algebra.Group.Nat.Defs
import Mathlib.Data.List.Basic

/-!
# Walking the free lists

`reset_bitmap_of_free_pages` for a zone: the list of free blocks of every order and migrate type is
walked from its head along `next`, and the pages of each block are cleared. An entry is accepted when
it belongs to a page and its `prev` is the entry the walk came from; there is no other bound on the
walk. It is given a number of rounds here and returns `none` when they are used up.

The result is the list of blocks whose pages are cleared; the number of free pages is only compared
for a message.
-/

namespace Bitmap

/-- `struct mem_map_data`; `mem_map` is 0 for a hole. -/
structure MemMapData where
  memMap : UInt64
  pfnStart : UInt64
  pfnEnd : UInt64
  deriving Repr, DecidableEq

/-- A zone: the memory of the dump, which is read in words, the offsets and sizes, and the number of
orders and of migrate types, if known. -/
structure Zone where
  readmem : UInt64 → Option UInt64
  nodeZones : UInt64
  orders : Nat
  migrateTypes : Option Nat := none
  zoneFreeArea : UInt64
  sizeFreeArea : UInt64
  freeAreaFreeList : UInt64
  sizeListHead : UInt64 := 16
  listHeadNext : UInt64 := 0
  listHeadPrev : UInt64 := 8
  pageLru : UInt64
  sizePage : UInt64
  /-- Where the number of free pages is. -/
  addrFreePages : Option UInt64
  memMapData : List MemMapData

variable (z : Zone)

def pageToPfn (page : UInt64) : Option UInt64 :=
  (z.memMapData.find? fun mmd => mmd.memMap ≠ 0 ∧ mmd.memMap ≤ page ∧
    (page - mmd.memMap) / z.sizePage < mmd.pfnEnd - mmd.pfnStart).bind fun mmd =>
      let pfn := mmd.pfnStart + (page - mmd.memMap) / z.sizePage
      -- `ULONGLONG_MAX` stands for failure
      if pfn = -1 then none else some pfn

/-- The checks of an entry and its `next`. -/
def passEntry (previous curr : UInt64) : Option UInt64 :=
  match pageToPfn z (curr - z.pageLru), z.readmem (curr + z.listHeadPrev) with
  | some _, some currPrev => if previous = currPrev then z.readmem (curr + z.listHeadNext) else none
  | _, _ => none

/-- How the walk of a list ends. -/
inductive ListEnd where
  | head
  | broken (entry : UInt64)
  deriving Repr, DecidableEq

/-- The walk of a list: the entries that are passed, and its end. -/
def walkList (head : UInt64) : Nat → UInt64 → UInt64 → List UInt64 × Option ListEnd
  | 0, _, _ => ([], none)
  | fuel + 1, previous, curr =>
    if curr = head then ([], some .head)
    else
      match passEntry z previous curr with
      | none => ([], some (.broken curr))
      | some next =>
        let r := walkList head fuel curr next
        (curr :: r.1, r.2)

def listHead (order migrateType : Nat) : UInt64 :=
  z.nodeZones + z.zoneFreeArea + z.sizeFreeArea * UInt64.ofNat order + z.freeAreaFreeList +
    z.sizeListHead * UInt64.ofNat migrateType

/-- One list: the blocks that are cleared, `some none` when the function returns FALSE. -/
def walkFreeList (fuel order migrateType : Nat) : Option (Option (List (UInt64 × Nat))) :=
  let head := listHead z order migrateType
  match z.readmem (head + z.listHeadNext) with
  | none => some none
  | some curr =>
    match walkList z head fuel head curr with
    | (_, none) => none
    | (_, some (.broken _)) => some none
    | (entries, some .head) =>
      some (entries.mapM fun curr => (pageToPfn z (curr - z.pageLru)).map fun pfn => (pfn, order))

/-- The orders and migrate types, in the order of the loops. -/
def freeLists : List (Nat × Nat) :=
  (List.range z.orders).reverse.flatMap fun order =>
    (List.range (z.migrateTypes.getD 1)).map fun migrateType => (order, migrateType)

/-- The lists one after the other. -/
def walkFreeLists (fuel : Nat) : List (Nat × Nat) → Option (Option (List (UInt64 × Nat)))
  | [] => some (some [])
  | l :: ls =>
    match walkFreeList z fuel l.1 l.2 with
    | none => none
    | some none => some none
    | some (some blocks) => (walkFreeLists fuel ls).map fun rest => rest.map (blocks ++ ·)

/-- `reset_bitmap_of_free_pages`. -/
def resetBitmapOfFreePages (fuel : Nat) : Option (Option (List (UInt64 × Nat))) :=
  (walkFreeLists z fuel (freeLists z)).map fun r =>
    r.bind fun blocks => (z.addrFreePages.bind z.readmem).map fun _ => blocks

end Bitmap
