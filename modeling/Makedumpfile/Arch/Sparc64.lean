import Makedumpfile.Arch.Address

/-!
# Page walks of sparc64

`vtop3_sparc64` and `vtop4_sparc64`. A page table entry and an entry of the PGD tables have 8 bytes, and
the macros compute their addresses with pointers to such entries, but for `pte_offset`. `Sparc64.levels`
are the levels of the two walks, with the entry `i` of a table at its address plus 8 times `i`.
-/

namespace Arch

open Lib

namespace Sparc64

def pageShift : Nat := 13
def pmdShift : Nat := pageShift + (pageShift - 3)
def pmdBits : Nat := pageShift - 3
def pudShift : Nat := pmdShift + pmdBits
def pudBits : Nat := pageShift - 3
def pgdirShiftL4 : Nat := pudShift + pudBits
def pgdirShiftL3 : Nat := pmdShift + pmdBits

def pageMask : Word := ~~~(1#64 <<< pageShift - 1#64)
def pmdMask : Word := ~~~(1#64 <<< pmdShift - 1#64)
def pudMask : Word := ~~~(1#64 <<< pudShift - 1#64)

def pagePmdHuge : Word := 0x0100000000000000#64
def pagePudHuge : Word := pagePmdHuge
def pagePaddr4v : Word := 0x00ffffffffffe000#64
def pagePresent4v : Word := 0x0000000000000010#64

def pteToPa (pte : Word) : Word := pte &&& pagePaddr4v

/-- `pgd_index_l4`, `pgd_index_l3`, `pud_index`, `pmd_index` and `pte_index`: all tables have `1 << 10`
entries. -/
def index (shift : Nat) (addr : Word) : Word := (addr >>> shift) &&& (1#64 <<< 10 - 1#64)

/-- `pgd_offset_l4`, `pgd_offset_l3`, `pud_offset` and `pmd_offset`: the sum of a pointer to entries. -/
def offset (shift : Nat) (table addr : Word) : Word := table + index shift addr * 8#64

/-- `pte_offset`: the sum of integers. -/
def pteOffset (pmdp addr : Word) : Word := pteToPa pmdp + index pageShift addr

/-- What the walks look at: 8 bytes of virtual memory, 8 bytes of physical memory and
`SYMBOL(swapper_pg_dir)` if it is known. -/
structure Machine where
  readVaddr : Word → Option Word
  readPaddr : Word → Option Word
  swapperPgDir : Option Word

variable (m : Machine)

/-- The part of both walks below the PMD. -/
def Machine.vtopPmd (vaddr pmdPaddr : Word) : Option Word := do
  let pmdPte ← m.readPaddr pmdPaddr
  if pmdPte = 0#64 then none
  else if pmdPte &&& pagePmdHuge ≠ 0#64 then some (pteToPa pmdPte + (vaddr &&& ~~~pmdMask))
  else do
    let pte ← m.readPaddr (pteOffset pmdPte vaddr)
    if pte &&& pagePresent4v = 0#64 then none
    else some (pteToPa pte + (vaddr &&& ~~~pageMask))

def Machine.vtop3 (vaddr : Word) : Word :=
  (do
    let pgdir ← m.swapperPgDir
    let pgdPte ← m.readVaddr (offset pgdirShiftL3 pgdir vaddr)
    if pgdPte = 0#64 then none
    else m.vtopPmd vaddr (offset pmdShift pgdPte vaddr)).getD notPaddr

/-- The part of `vtop4_sparc64` below the PGD. -/
def Machine.vtopPud (vaddr pudPaddr : Word) : Option Word := do
  let pudPte ← m.readPaddr pudPaddr
  if pudPte = 0#64 then none
  else if pudPte &&& pagePudHuge ≠ 0#64 then some (pteToPa pudPte + (vaddr &&& ~~~pudMask))
  else m.vtopPmd vaddr (offset pmdShift pudPte vaddr)

def Machine.vtop4 (vaddr : Word) : Word :=
  (do
    let pgdir ← m.swapperPgDir
    let pgdPte ← m.readVaddr (offset pgdirShiftL4 pgdir vaddr)
    if pgdPte = 0#64 then none
    else m.vtopPud vaddr (offset pudShift pgdPte vaddr)).getD notPaddr

/-! ## The architecture -/

/-- The physical address bits of an entry: 13 to 55. -/
def address (e : Word) : Nat := e.toNat % 2 ^ 56 / 2 ^ 13 * 2 ^ 13

/-- A PGD entry is the address of a table. -/
def decodePgd (e : Word) : PageEntry Nat := if e = 0#64 then .absent else .table e.toNat

/-- A PUD entry is the address of a PMD table or, with bit 56, a huge page. -/
def decodePud (e : Word) : PageEntry Nat :=
  if e = 0#64 then .absent
  else if e.getLsbD 56 then .leaf (address e)
  else .table e.toNat

/-- A PMD entry has the address of a page table among other bits. -/
def decodePmd (e : Word) : PageEntry Nat :=
  if e = 0#64 then .absent
  else if e.getLsbD 56 then .leaf (address e)
  else .table (address e)

/-- A page table entry is present with bit 4. -/
def decodePte (e : Word) : PageEntry Nat :=
  if e.getLsbD 4 = false then .absent else .leaf (address e)

/-- A level: tables of 1024 entries of 8 bytes. -/
def level (read : Word → Option Word) (shift : Nat) (decode : Word → PageEntry Nat) :
    PageLevel Nat where
  shift := shift
  entry table i := read (BitVec.ofNat 64 (table + i % 1024 * 8))
  decode := decode

/-- The levels above the page table. -/
def Machine.upperLevels (fourLevels : Bool) : List (PageLevel Nat) :=
  if fourLevels then
    [level m.readVaddr 43 decodePgd, level m.readPaddr 33 decodePud, level m.readPaddr 23 decodePmd]
  else [level m.readVaddr 33 decodePgd, level m.readPaddr 23 decodePmd]

def Machine.levels (fourLevels : Bool) : List (PageLevel Nat) :=
  m.upperLevels fourLevels ++ [level m.readPaddr 13 decodePte]

/-- The physical address by the page tables; the PGD is at a virtual address. -/
def Machine.translation (fourLevels : Bool) (vaddr : Word) : Option Nat :=
  m.swapperPgDir.bind fun pgdir => pageWalk vaddr.toNat (m.levels fourLevels) pgdir.toNat

/-- The page of the page table entry at an address, if it can be read and is present. -/
def Machine.pageAt (a : Nat) : PageEntry Nat :=
  match m.readPaddr (BitVec.ofNat 64 a) with
  | none => .absent
  | some e => decodePte e

/-- **Both walks are right for an address.** -/
def Machine.Walks (vaddr : Word) : Prop :=
  m.vtop3 vaddr = paddr (m.translation false vaddr) ∧ m.vtop4 vaddr = paddr (m.translation true vaddr)

end Sparc64

end Arch
