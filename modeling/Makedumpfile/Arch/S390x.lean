import Makedumpfile.Arch.Address

/-!
# Page walk of s390x

`vtop_s390x`: the first entry of `swapper_pg_dir` says how many levels there are, from a segment table
only (level 0) up to a region-first table (level 3). `S390x.levels` are the levels of the architecture:
an entry has to be in the table's length, not invalid and of the type of its level.
-/

namespace Arch

open Lib

namespace S390x

/-- What the walk looks at: 8 bytes of physical memory and the table of `swapper_pg_dir`, if its symbol
is known. `junk` is the value of a variable that a failed read leaves unset, and `shift64` the result of
a shift by 64 bits, which C leaves undefined (the machine's instruction takes the amount modulo 64). -/
structure Machine where
  readmem : Word → Option Word
  swapperPgDir : Option Word
  junk : Word
  shift64 : Word → Word

/-! ## Macros -/

def tableSize : Nat := 4096

def tableLevel (x : Word) : Nat := ((x &&& 0x0c#64) >>> 2).toNat
def tableLength (x : Word) : Nat := (x &&& 0x03#64).toNat
def rsgTableLevel (x : Word) : Nat := ((x &&& 0x0c#64) >>> 2).toNat
def rsgTableLength (x : Word) : Nat := (x &&& 0x03#64).toNat

def regionEntryOrigin : Word := ~~~0xfff#64
def regionEntryInvalid : Word := 0x20#64
def regionEntryTypeMask : Word := 0x0c#64
def regionEntryLength : Word := 0x03#64
def regionEntryLarge : Word := 0x400#64
def segmentEntryOrigin : Word := ~~~0x7ff#64
def segmentEntryLarge : Word := 0x400#64
def segmentEntryCo : Word := 0x100#64
def pageZero : Word := 0x800#64
def pageInvalid : Word := 0x400#64

/-- `rsg_offset`. -/
def rsgOffset (vaddr : Word) (level : Nat) : Word :=
  ((vaddr >>> (11 * level + 20)) &&& 0x7ff#64) * 8#64

/-- `pte_offset`. -/
def pteOffset (vaddr : Word) : Word := ((vaddr >>> 12) &&& 0xff#64) * 8#64

/-! ## The walk -/

def rsgTableEntryBad (entry : Word) (level : Nat) : Bool :=
  let mask := ~~~regionEntryInvalid &&& ~~~regionEntryTypeMask &&& ~~~regionEntryLength &&&
    ~~~segmentEntryLarge &&& ~~~segmentEntryCo
  let mask := if level ≠ 0 then mask &&& ~~~regionEntryOrigin else mask &&& ~~~segmentEntryOrigin
  entry &&& mask ≠ 0#64

/-- `_kl_rsg_table_deref_s390x`: the entry, or 0. -/
def Machine.rsgTableDeref (m : Machine) (vaddr table : Word) (len level : Nat) : Word :=
  let offset := rsgOffset vaddr level
  if (len + 1) * tableSize ≤ offset.toNat then 0#64
  else
    match m.readmem (table + offset) with
    | none => 0#64
    | some entry =>
      if rsgTableEntryBad entry level then 0#64
      else if rsgTableLevel entry ≠ level ∧ entry &&& regionEntryInvalid ≠ 0#64 then 0#64
      else entry

/-- `_kl_pg_table_deref_s390x`: the entry, or 0. -/
def Machine.pgTableDeref (m : Machine) (vaddr table : Word) : Word :=
  let entry := (m.readmem (table + pteOffset vaddr)).getD m.junk
  if entry &&& (pageZero ||| pageInvalid) ≠ 0#64 then 0#64 else entry

/-- `vtop_s390x` behind the loop, with the segment table's entry. -/
def Machine.vtopSegment (m : Machine) (vaddr entry : Word) : Option Word :=
  let table := entry &&& regionEntryOrigin
  if entry &&& segmentEntryLarge ≠ 0#64 then
    some ((table &&& ~~~0xfffff#64) + (vaddr &&& 0xfffff#64))
  else
    let entry := m.pgTableDeref vaddr (entry &&& segmentEntryOrigin)
    if entry = 0#64 then none
    else some ((entry &&& regionEntryOrigin) + (vaddr &&& 0xfff#64))

/-- The loop of `vtop_s390x` over the region and segment tables. -/
def Machine.vtopLoop (m : Machine) (vaddr : Word) : (level : Nat) → (table : Word) → (len : Nat) →
    Option Word
  | level, table, len =>
    let entry := m.rsgTableDeref vaddr table len level
    if entry = 0#64 then none
    else
      let table := entry &&& regionEntryOrigin
      if entry &&& regionEntryLarge ≠ 0#64 ∧ level = 1 then
        some ((table &&& ~~~0x7fffffff#64) + (vaddr &&& 0x7fffffff#64))
      else
        match level with
        | 0 => m.vtopSegment vaddr entry
        | level + 1 => m.vtopLoop vaddr level table (rsgTableLength entry)

/-- `vaddr >> (_SEGMENT_PAGE_SHIFT + (_REGION_INDEX_SHIFT * level))`. -/
def Machine.tooBig (m : Machine) (vaddr : Word) (level : Nat) : Bool :=
  (if 31 + 11 * level < 64 then vaddr >>> (31 + 11 * level) else m.shift64 vaddr) ≠ 0#64

def Machine.vtop (m : Machine) (vaddr : Word) : Word :=
  (do
    let table ← m.swapperPgDir
    let entry ← m.readmem table
    let level := tableLevel entry
    if m.tooBig vaddr level then none
    else m.vtopLoop vaddr level table (tableLength entry)).getD notPaddr

/-! ## The architecture -/

/-- The tables of a walk. -/
inductive Table where
  | rsg (level : Nat)
  | page
  deriving Repr, DecidableEq

/-- The tables from a level on. -/
def tables : Nat → List Table
  | 0 => [.rsg 0, .page]
  | level + 1 => .rsg (level + 1) :: tables level

/-- The origin of a table and the length that is announced for it. -/
abbrev Origin := Nat × Nat

/-- What a good entry of a region or segment table says. It may be a page of 2 GiB at level 1 and of 1 MiB
at level 0. -/
def rsgEntry (level : Nat) (e : Word) : PageEntry Origin :=
  if level = 1 ∧ e.getLsbD 10 = true then .leaf (e.toNat / 2 ^ 31 * 2 ^ 31)
  else if level ≠ 0 then .table (e.toNat / 2 ^ 12 * 2 ^ 12, e.toNat % 4)
  else if e.getLsbD 10 = true then .leaf (e.toNat / 2 ^ 20 * 2 ^ 20)
  else .table (e.toNat / 2 ^ 11 * 2 ^ 11, 0)

/-- An entry is followed if no reserved bit is set, it is not invalid and it is of the type of its
level. -/
def decodeRsg (level : Nat) (e : Word) : PageEntry Origin :=
  if rsgTableEntryBad e level ∨ e.getLsbD 5 = true ∨ e.toNat / 4 % 4 ≠ level then .absent
  else rsgEntry level e

/-- What an entry of a page table says: bit 11 has to be 0, and bit 10 is the invalid bit. -/
def decodePage (e : Word) : PageEntry Origin :=
  if e.getLsbD 11 = true ∨ e.getLsbD 10 = true then .absent
  else .leaf (e.toNat / 2 ^ 12 * 2 ^ 12)

/-- The levels: tables of 2048 entries, of which `len + 1` quarters are there, and page tables of 256. -/
def Machine.level (m : Machine) : Table → PageLevel Origin
  | .rsg level =>
    { shift := 20 + 11 * level
      entry := fun t i =>
        if i % 2048 * 8 < (t.2 + 1) * tableSize then m.readmem (BitVec.ofNat 64 (t.1 + i % 2048 * 8))
        else none
      decode := decodeRsg level }
  | .page =>
    { shift := 12
      entry := fun t i => m.readmem (BitVec.ofNat 64 (t.1 + i % 256 * 8))
      decode := decodePage }

/-- The physical address: with the depth that the first entry of the root announces, of an address that
fits it. -/
def Machine.translation (m : Machine) (vaddr : Word) : Option Nat := do
  let table ← m.swapperPgDir
  let entry ← m.readmem table
  let level := entry.toNat / 4 % 4
  if vaddr.toNat < 2 ^ (31 + 11 * level) then
    pageWalk vaddr.toNat ((tables level).map m.level) (table.toNat, entry.toNat % 4)
  else none

/-- **The walk is right.** -/
def Machine.Walks (m : Machine) (vaddr : Word) : Prop := m.vtop vaddr = paddr (m.translation vaddr)

end S390x

end Arch
