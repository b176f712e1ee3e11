import Makedumpfile.Arch.Address

/-!
# Page walk of x86_64

`__vtop4_x86_64` without Xen. `X8664.levels` are the levels of the architecture, with the largest first:
the entries of PUD and PMD tables may be pages of 1 GiB and 2 MiB.
-/

namespace Arch

open Lib

namespace X8664

/-- What `__vtop4_x86_64` looks at: 8 bytes of physical memory, `check_5level_paging()` and
`NUMBER(sme_mask)`. -/
structure Machine where
  readmem : Word → Option Word
  la57 : Bool
  smeMask : Option Word

def entryMask : Word := ~~~0xfff0000000000fff#64

def pgdShift5level : Nat := 48
def pgdShift : Nat := 39
def p4dShift : Nat := 39
def pudShift : Nat := 30
def pmdShift : Nat := 21
def pteShift : Nat := 12

def pudMask : Word := ~~~(1#64 <<< pudShift - 1#64)
def pmdMask : Word := ~~~(1#64 <<< pmdShift - 1#64)

def pagePresent : Word := 0x001#64
def pagePse : Word := 0x080#64

/-- `pgd5_index`, `pgd_index`, `p4d_index`, `pud_index`, `pmd_index` and `pte_index`. -/
def index (shift : Nat) (address : Word) : Word := (address >>> shift) &&& 511#64

/-- `PAGEOFFSET`. -/
def pageoffset (x : Word) : Word := x &&& (4096#64 - 1#64)

/-- The entry at `paddr`, if it can be read and is present. -/
def Machine.present (m : Machine) (paddr : Word) : Option Word := do
  let entry ← m.readmem paddr
  if entry &&& pagePresent = 0#64 then none else some entry

/-- `entry_mask` without the encryption bit. -/
def Machine.entryMask (m : Machine) : Word :=
  match m.smeMask with
  | some smeMask => X8664.entryMask &&& ~~~smeMask
  | none => X8664.entryMask

/-- `__vtop4_x86_64` from the PUD on. -/
def Machine.vtopPud (m : Machine) (vaddr pudPaddr : Word) : Option Word := do
  let pudPte ← m.present (pudPaddr + index pudShift vaddr * 8#64)
  if pudPte &&& pagePse ≠ 0#64 then  -- 1GB pages
    some ((pudPte &&& m.entryMask &&& pudMask) + (vaddr &&& ~~~pudMask))
  else do
    let pmdPte ← m.present ((pudPte &&& m.entryMask) + index pmdShift vaddr * 8#64)
    if pmdPte &&& pagePse ≠ 0#64 then  -- 2MB pages
      some ((pmdPte &&& m.entryMask &&& pmdMask) + (vaddr &&& ~~~pmdMask))
    else do
      let pte ← m.present ((pmdPte &&& m.entryMask) + index pteShift vaddr * 8#64)
      some ((pte &&& m.entryMask) + pageoffset vaddr)

/-- `__vtop4_x86_64`; the page table is at the address `pagetable`. -/
def Machine.vtop4? (m : Machine) (vaddr pagetable : Word) : Option Word :=
  if m.la57 then do
    let pgd ← m.present (pagetable + index pgdShift5level vaddr * 8#64)
    let p4dPte ← m.present ((pgd &&& m.entryMask) + index p4dShift vaddr * 8#64)
    m.vtopPud vaddr (p4dPte &&& m.entryMask)
  else do
    let pgd ← m.present (pagetable + index pgdShift vaddr * 8#64)
    m.vtopPud vaddr (pgd &&& m.entryMask)

def Machine.vtop4 (m : Machine) (vaddr pagetable : Word) : Word :=
  (m.vtop4? vaddr pagetable).getD notPaddr

/-! ## The architecture -/

/-- The physical address in an entry: bits 12 to 51 without the encryption bit. -/
def address (enc : Option (Fin 64)) (e : Word) : Nat :=
  (match enc with
    | some c => e &&& ~~~(1#64 <<< c.val)
    | none => e).toNat % 2 ^ 52 / 2 ^ 12 * 2 ^ 12

/-- What an entry of a level says; in the levels with `large`, bit 7 is the mark of a page. -/
def decode (enc : Option (Fin 64)) (shift : Nat) (large last : Bool) (e : Word) : PageEntry Nat :=
  if e.getLsbD 0 = false then .absent
  else if last || large && e.getLsbD 7 then .leaf (address enc e / 2 ^ shift * 2 ^ shift)
  else .table (address enc e)

/-- A level: tables of 512 entries of 8 bytes. -/
def level (readmem : Word → Option Word) (enc : Option (Fin 64)) (shift : Nat)
    (large last : Bool) : PageLevel Nat where
  shift := shift
  entry table i := readmem (BitVec.ofNat 64 (table + i % 512 * 8))
  decode := decode enc shift large last

/-- The levels below the PGD of 4-level paging and the P4D of 5-level paging. -/
def lowerLevels (readmem : Word → Option Word) (enc : Option (Fin 64)) : List (PageLevel Nat) :=
  [level readmem enc 30 true false, level readmem enc 21 true false, level readmem enc 12 false true]

def levels (readmem : Word → Option Word) (enc : Option (Fin 64)) : Bool → List (PageLevel Nat)
  | false => level readmem enc 39 false false :: lowerLevels readmem enc
  | true =>
    level readmem enc 48 false false :: level readmem enc 39 false false :: lowerLevels readmem enc

/-- The machine with an encryption bit. -/
def machine (readmem : Word → Option Word) (la57 : Bool) (enc : Option (Fin 64)) : Machine :=
  { readmem, la57, smeMask := enc.map fun c => 1#64 <<< c.val }

end X8664

end Arch
