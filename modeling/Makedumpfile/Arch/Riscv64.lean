import Makedumpfile.Arch.Address

/-!
# Page walk of riscv64

`vtop_riscv64`. The walk may stop at every level, at an entry that is readable, writable or executable,
and leaves by the same exit. `Riscv64.levels` are the levels of the architecture for the three address
lengths; pages have 4 KiB.
-/

namespace Arch

open Lib

namespace Riscv64

def vaBitsSv48 : Nat := 48
def vaBitsSv57 : Nat := 57

def pgdShiftL3 : Nat := 30
def pgdShiftL4 : Nat := 39
def pgdShiftL5 : Nat := 48
def p4dShift : Nat := 39
def pudShift : Nat := 30
def pmdShift : Nat := 21
def pageShift : Nat := 12

def pagePresent : Word := 1#64
def pageLeaf : Word := 0xe#64
def pagePfnShift : Nat := 10
def ptePfnProtMask : Word := 0x3fffffffffffff#64

/-- What the walk looks at: 8 bytes of physical memory, `NUMBER(va_bits)` and the PGD. -/
structure Machine where
  readmem : Word → Option Word
  vaBits : Nat
  pgd : Word

/-- `pgd_index_l3` to `pgd_index_l5`, `p4d_index`, `pud_index`, `pmd_index` and `pte_index`. -/
def index (shift : Nat) (addr : Word) : Word := (addr >>> shift) &&& (512#64 - 1#64)

/-- `PAGEOFFSET`. -/
def pageoffset (x : Word) : Word := x &&& (1#64 <<< pageShift - 1#64)

/-- The shift of `pgd_index`. -/
def pgdShift (vaBits : Nat) : Nat :=
  if vaBits = vaBitsSv57 then pgdShiftL5 else if vaBits = vaBitsSv48 then pgdShiftL4 else pgdShiftL3

variable (m : Machine)

/-- The entry for `vaddr` of the table at `table`, if it can be read and is present. -/
def Machine.present (table : Word) (shift : Nat) (vaddr : Word) : Option Word := do
  let ptVal ← m.readmem (table + index shift vaddr * 8#64)
  if ptVal &&& ptePfnProtMask &&& pagePresent = 0#64 then none else some (ptVal &&& ptePfnProtMask)

/-- `pt_phys`. -/
def ptPhys (ptVal : Word) : Word := (ptVal >>> pagePfnShift) <<< pageShift

/-- The label `out`. -/
def out (vaddr ptVal : Word) : Word := ptPhys ptVal + pageoffset vaddr

def Machine.vtopPte (vaddr table : Word) : Option Word := do
  let ptVal ← m.present table pageShift vaddr
  some (out vaddr ptVal)

/-- The label `pmd`. -/
def Machine.vtopPmd (vaddr table : Word) : Option Word := do
  let ptVal ← m.present table pmdShift vaddr
  if ptVal &&& pageLeaf ≠ 0#64 then some (out vaddr ptVal) else m.vtopPte vaddr (ptPhys ptVal)

/-- The label `pud`. -/
def Machine.vtopPud (vaddr table : Word) : Option Word := do
  let ptVal ← m.present table pudShift vaddr
  if ptVal &&& pageLeaf ≠ 0#64 then some (out vaddr ptVal) else m.vtopPmd vaddr (ptPhys ptVal)

/-- The label `p4d`. -/
def Machine.vtopP4d (vaddr table : Word) : Option Word := do
  let ptVal ← m.present table p4dShift vaddr
  if ptVal &&& pageLeaf ≠ 0#64 then some (out vaddr ptVal) else m.vtopPud vaddr (ptPhys ptVal)

/-- `vtop_riscv64`. -/
def Machine.vtop (vaddr : Word) : Word :=
  (do
    let ptVal ← m.present m.pgd (pgdShift m.vaBits) vaddr
    if ptVal &&& pageLeaf ≠ 0#64 then some (out vaddr ptVal)
    else if m.vaBits = vaBitsSv57 then m.vtopP4d vaddr (ptPhys ptVal)
    else if m.vaBits = vaBitsSv48 then m.vtopPud vaddr (ptPhys ptVal)
    else m.vtopPmd vaddr (ptPhys ptVal)).getD notPaddr

/-! ## The architecture -/

/-- The frame address of an entry: its bits 10 to 53 are the number of the page. -/
def frame (e : Word) : Nat := e.toNat % 2 ^ 54 / 2 ^ 10 * 2 ^ 12

/-- An entry is valid with bit 0, and it is a leaf with one of the bits 1 to 3; at the last level all
valid entries are taken as leaves. -/
def decode (last : Bool) (e : Word) : PageEntry Nat :=
  if e.getLsbD 0 = false then .absent
  else if last || e.getLsbD 1 || e.getLsbD 2 || e.getLsbD 3 then .leaf (frame e)
  else .table (frame e)

/-- A level: tables of 512 entries of 8 bytes. -/
def level (readmem : Word → Option Word) (shift : Nat) (last : Bool) : PageLevel Nat where
  shift := shift
  entry table i := readmem (BitVec.ofNat 64 (table + i % 512 * 8))
  decode := decode last

/-- The levels of Sv57, of Sv48 and of Sv39. -/
def Machine.levels : List (PageLevel Nat) :=
  let sv39 := [level m.readmem 30 false, level m.readmem 21 false, level m.readmem 12 true]
  if m.vaBits = vaBitsSv57 then level m.readmem 48 false :: level m.readmem 39 false :: sv39
  else if m.vaBits = vaBitsSv48 then level m.readmem 39 false :: sv39
  else sv39

/-- **The walk is right for an address.** -/
def Machine.Walks (vaddr : Word) : Prop :=
  m.vtop vaddr = paddr (pageWalk vaddr.toNat m.levels m.pgd.toNat)

end Riscv64

end Arch
