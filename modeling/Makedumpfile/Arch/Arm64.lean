import Makedumpfile.Arch.Address

/-!
# Page walk of arm64

`vaddr_to_paddr_arm64` with the configurations of `calculate_plat_config`. With less than 4 levels, PUD
and PMD entries are the entry of the level above, read again. `Arm64.levels` are the levels of a
configuration: the level `n` has blocks of `2 ^ levelShift n` bytes, for `n` 1 or 2.
-/

namespace Arch

open Lib

namespace Arm64

def sz4k : Nat := 4096
def sz16k : Nat := 16384
def sz64k : Nat := 65536

/-- `calculate_plat_config`: `pgtable_level`. -/
def calculatePlatConfig (pagesize vaBits : Nat) : Option Nat :=
  if (pagesize = sz16k ∧ vaBits = 36) ∨ (pagesize = sz64k ∧ vaBits = 42) then some 2
  else if (pagesize = sz64k ∧ vaBits = 48) ∨ (pagesize = sz64k ∧ vaBits = 52) ∨
      (pagesize = sz4k ∧ vaBits = 39) ∨ (pagesize = sz16k ∧ vaBits = 47) then some 3
  else if pagesize ≠ sz64k ∧ vaBits = 48 then some 4
  else none

/-- A configuration: pages of 4, 16 or 64 KiB, and 52-bit addresses with 64 KiB only. -/
structure Config where
  pageShift : Nat
  vaBits : Nat
  pgtableLevel : Nat
  /-- `lpa_52_bit_support_available`. -/
  lpa : Bool
  pagesize : pageShift = 12 ∨ pageShift = 14 ∨ pageShift = 16
  platConfig : calculatePlatConfig (2 ^ pageShift) vaBits = some pgtableLevel
  lpaPagesize : lpa = true → pageShift = 16

/-- What the walk looks at: 8 bytes of physical memory, `SYMBOL(swapper_pg_dir)` if it is known, and
what `__pa` needs for it. -/
structure Machine extends Config where
  readmem : Word → Option Word
  swapperPgDir : Option Word
  kimageVoffset : Option Word
  flippedVa : Bool
  vabitsActual : Nat
  pageOffset : Word
  physBase : Word

/-! ## Macros -/

/-- `ARM64_HW_PGTABLE_LEVEL_SHIFT`. -/
def Config.levelShift (c : Config) (n : Nat) : Nat := (c.pageShift - 3) * (4 - n) + 3

def Config.pmdShift (c : Config) : Nat := c.levelShift 2
def Config.pudShift (c : Config) : Nat := c.levelShift 1
def Config.pgdirShift (c : Config) : Nat := c.levelShift (4 - c.pgtableLevel)

def Config.pmdMask (c : Config) : Word := ~~~(1#64 <<< c.pmdShift - 1#64)
def Config.pudMask (c : Config) : Word := ~~~(1#64 <<< c.pudShift - 1#64)

def Config.ptrsPerPte (c : Config) : Word := 1#64 <<< (c.pageShift - 3)
def Config.ptrsPerPgd (c : Config) : Word := 1#64 <<< (c.vaBits - c.pgdirShift)

def Config.pgdIndex (c : Config) (vaddr : Word) : Word :=
  (vaddr >>> c.pgdirShift) &&& (c.ptrsPerPgd - 1#64)
def Config.pudIndex (c : Config) (vaddr : Word) : Word :=
  (vaddr >>> c.pudShift) &&& (c.ptrsPerPte - 1#64)
def Config.pmdIndex (c : Config) (vaddr : Word) : Word :=
  (vaddr >>> c.pmdShift) &&& (c.ptrsPerPte - 1#64)
def Config.pteIndex (c : Config) (vaddr : Word) : Word :=
  (vaddr >>> c.pageShift) &&& (c.ptrsPerPte - 1#64)

def Config.pteAddrLow (c : Config) : Word := (1#64 <<< (48 - c.pageShift) - 1#64) <<< c.pageShift
def pteAddrHigh : Word := 0xf#64 <<< 12

/-- `__pte_to_phys`, for the entries of every level. -/
def Config.pteToPhys (c : Config) (pte : Word) : Word :=
  if c.lpa then (pte &&& c.pteAddrLow) ||| ((pte &&& pteAddrHigh) <<< 36)
  else pte &&& c.pteAddrLow

def isPudSect (pud : Word) : Bool := pud &&& 3#64 = 1#64
def isPmdSect (pmd : Word) : Bool := pmd &&& 3#64 = 1#64
def pagePresent : Word := 1#64

/-- `is_linear_addr`. -/
def Machine.isLinearAddr (m : Machine) (addr : Word) : Bool :=
  let bit := addr &&& (1#64 <<< (m.vabitsActual - 1))
  if m.flippedVa then bit = 0#64 else bit ≠ 0#64

/-- `__pa`. -/
def Machine.pa (m : Machine) (vaddr : Word) : Word :=
  match m.kimageVoffset with
  | none => (vaddr &&& ~~~m.pageOffset) + m.physBase
  | some kimageVoffset =>
    if m.isLinearAddr vaddr then (vaddr &&& ~~~m.pageOffset) + m.physBase
    else vaddr - kimageVoffset

/-- `pud_offset`: with less than 4 levels the address of the PGD entry itself. -/
def Config.pudOffset (c : Config) (pgda pgdv vaddr : Word) : Word :=
  if 3 < c.pgtableLevel then c.pteToPhys pgdv + c.pudIndex vaddr * 8#64 else pgda

/-- `pmd_offset`: with 2 levels the address of the PUD entry itself. -/
def Config.pmdOffset (c : Config) (puda pudv vaddr : Word) : Word :=
  if 2 < c.pgtableLevel then c.pteToPhys pudv + c.pmdIndex vaddr * 8#64 else puda

/-- `vaddr_to_paddr_arm64` from the PMD on. -/
def Machine.vtopPmd (m : Machine) (vaddr pmda : Word) : Option Word := do
  let pmdv ← m.readmem pmda
  if isPmdSect pmdv then
    some ((m.pteToPhys pmdv &&& m.pmdMask) + (vaddr &&& (1#64 <<< m.pmdShift - 1#64)))
  else do
    let ptev ← m.readmem (m.pteToPhys pmdv + m.pteIndex vaddr * 8#64)
    if ptev &&& pagePresent = 0#64 then none
    else some (m.pteToPhys ptev + (vaddr &&& (1#64 <<< m.pageShift - 1#64)))

/-- `vaddr_to_paddr_arm64` from the PUD on. -/
def Machine.vtopPud (m : Machine) (vaddr puda : Word) : Option Word := do
  let pudv ← m.readmem puda
  if isPudSect pudv then
    some ((m.pteToPhys pudv &&& m.pudMask) + (vaddr &&& (1#64 <<< m.pudShift - 1#64)))
  else m.vtopPmd vaddr (m.pmdOffset puda pudv vaddr)

/-- `vaddr_to_paddr_arm64` from the PGD on. -/
def Machine.vtopPgd (m : Machine) (vaddr swapperPhys : Word) : Option Word := do
  let pgda := swapperPhys + m.pgdIndex vaddr * 8#64
  let pgdv ← m.readmem pgda
  m.vtopPud vaddr (m.pudOffset pgda pgdv vaddr)

def Machine.vaddrToPaddr (m : Machine) (vaddr : Word) : Word :=
  (do
    let swapperPgDir ← m.swapperPgDir
    m.vtopPgd vaddr (m.pa swapperPgDir)).getD notPaddr

/-! ## The levels of a configuration -/

/-- The address in an entry: the bits from the page size to 47, and 52-bit addresses have their highest
four bits in bits 12 to 15. -/
def Config.outputAddress (c : Config) (e : Word) : Nat :=
  e.toNat % 2 ^ 48 / 2 ^ c.pageShift * 2 ^ c.pageShift +
    if c.lpa then e.toNat / 2 ^ 12 % 16 * 2 ^ 48 else 0

/-- The number of address bits that select the entry of a level. -/
def Config.indexBits (c : Config) (n : Nat) : Nat :=
  if n = 4 - c.pgtableLevel then c.vaBits - c.levelShift n else c.pageShift - 3

/-- What an entry of the level `n` says. There are no blocks at level 0, and no tables behind level 3. -/
def Config.decode (c : Config) (n : Nat) (e : Word) : PageEntry Nat :=
  if e.getLsbD 0 = false then .absent
  else if n = 3 then .leaf (c.outputAddress e)
  else if n ≠ 0 ∧ e.getLsbD 1 = false then
    .leaf (c.outputAddress e / 2 ^ c.levelShift n * 2 ^ c.levelShift n)
  else .table (c.outputAddress e)

def Machine.level (m : Machine) (n : Nat) : PageLevel Nat where
  shift := m.levelShift n
  entry table i := m.readmem (BitVec.ofNat 64 (table + i % 2 ^ m.indexBits n * 8))
  decode := m.decode n

/-- The numbers of the levels. -/
def Config.levelNumbers (c : Config) : List Nat := List.range' (4 - c.pgtableLevel) c.pgtableLevel

/-- The physical address of `vaddr`. -/
def Machine.translation (m : Machine) (vaddr : Word) : Option Nat :=
  m.swapperPgDir.bind fun swapperPgDir =>
    pageWalk vaddr.toNat (m.levelNumbers.map m.level) (m.pa swapperPgDir).toNat

/-- **The walk is right**: no address if the walk ends at an entry that is not valid or cannot be read,
and the address of the page or the block otherwise. -/
def Machine.Walks (m : Machine) (vaddr : Word) : Prop :=
  m.vaddrToPaddr vaddr = paddr (m.translation vaddr)

end Arm64

end Arch
