import Makedumpfile.Arch.Address

/-!
# Page walk of ppc64

`ppc64_vmalloc_init`, the layout of the page tables by page size, MMU and kernel version, and
`ppc64_vtop_level4`. Each table is read as one page, the one that it starts in, and the entry is at the
offset of its address in that page. `Ppc64.levels` are the levels of a layout, with the entry at the
table's address plus 8 times the index.
-/

namespace Arch

open Lib

namespace Ppc64

/-- `KERNEL_VERSION`. -/
def mkKernelVersion (x y z : Nat) : Nat := x <<< 24 ||| y <<< 16 ||| z

/-- What the layout depends on. -/
structure Config where
  /-- `info->page_size == 65536`, and 4096 otherwise. -/
  page64k : Bool
  /-- `info->cur_mmu_type & MMU_TYPE_RADIX`. -/
  radix : Bool
  kernelVersion : Nat
  /-- `SYMBOL(demote_segment_4k)` is not 0. -/
  demoteSegment4k : Bool
  deriving Repr, DecidableEq

/-- What `ppc64_vmalloc_init` sets. -/
structure Layout where
  l1IndexSize : Nat
  l2IndexSize : Nat
  l3IndexSize : Nat
  l4IndexSize : Nat
  pteRpnShift : Nat
  pteRpnMask : Word
  pgdMaskedBits : Word
  pudMaskedBits : Word
  pmdMaskedBits : Word
  deriving Repr, DecidableEq

def Config.pageShift (c : Config) : Nat := if c.page64k then 16 else 12

/-- The sizes of the indexes, from the page table to the PGD. -/
def Config.indexSizes (c : Config) : Nat × Nat × Nat × Nat :=
  if c.page64k then
    if c.radix then (5, 9, 9, 13)
    else if mkKernelVersion 4 6 0 ≤ c.kernelVersion then
      if mkKernelVersion 4 12 0 ≤ c.kernelVersion then
        (8, 10, if mkKernelVersion 4 17 0 ≤ c.kernelVersion then 10 else 7, 8)
      else (8, 5, 5, 12)
    else if mkKernelVersion 3 10 0 ≤ c.kernelVersion then (8, 10, 0, 12)
    else (12, 12, 0, 4)
  else
    if c.radix then (9, 9, 9, 13)
    else (9, 7, if mkKernelVersion 3 7 0 ≤ c.kernelVersion then 9 else 7, 9)

/-- `info->pte_rpn_shift` and `info->pte_rpn_mask`. -/
def Config.pteRpn (c : Config) : Nat × Word :=
  let shift :=
    if c.page64k then if c.demoteSegment4k then 30 else 32
    else if mkKernelVersion 4 5 0 ≤ c.kernelVersion then 18 else 17
  let rpn :=
    if mkKernelVersion 4 6 0 ≤ c.kernelVersion ∧ c.kernelVersion < mkKernelVersion 4 11 0 then
      (c.pageShift, (1#64 <<< (if c.page64k then 41 else 45) - 1#64) <<< c.pageShift)
    else (shift, BitVec.allOnes 64)
  if mkKernelVersion 4 11 0 ≤ c.kernelVersion then
    (c.pageShift, (1#64 <<< 53 - 1#64) &&& ~~~(1#64 <<< c.pageShift - 1#64))
  else rpn

/-- `info->pgd_masked_bits`, `info->pud_masked_bits` and `info->pmd_masked_bits`. -/
def Config.maskedBits (c : Config) : Word × Word × Word :=
  if mkKernelVersion 4 7 0 ≤ c.kernelVersion then
    (0xc0000000000000ff#64, 0xc0000000000000ff#64, 0xc0000000000000ff#64)
  else if c.page64k then
    if mkKernelVersion 4 6 0 ≤ c.kernelVersion then
      (0xc0000000000000ff#64, 0xc0000000000000ff#64, 0xc0000000000000ff#64)
    else (0#64, 0x1ff#64, if mkKernelVersion 3 11 0 ≤ c.kernelVersion then 0xfff#64 else 0x1ff#64)
  else (0#64, 0#64, 0#64)

def Config.vmallocInit (c : Config) : Layout where
  l1IndexSize := c.indexSizes.1
  l2IndexSize := c.indexSizes.2.1
  l3IndexSize := c.indexSizes.2.2.1
  l4IndexSize := c.indexSizes.2.2.2
  pteRpnShift := c.pteRpn.1
  pteRpnMask := c.pteRpn.2
  pgdMaskedBits := c.maskedBits.1
  pudMaskedBits := c.maskedBits.2.1
  pmdMaskedBits := c.maskedBits.2.2

def Config.l1Shift (c : Config) : Nat := c.pageShift
def Config.l2Shift (c : Config) : Nat := c.l1Shift + c.vmallocInit.l1IndexSize
def Config.l3Shift (c : Config) : Nat := c.l2Shift + c.vmallocInit.l2IndexSize
def Config.l4Shift (c : Config) : Nat := c.l3Shift + c.vmallocInit.l3IndexSize

/-- What the walk looks at: the pages of virtual memory, each as the `ulong` at each of its offsets,
`info->kernel_start`, `info->kernel_pgd` and the byte order. -/
structure Machine extends Config where
  readpage : Word → Option (Word → Word)
  kernelStart : Word
  kernelPgd : Word
  littleEndian : Bool

/-! ## Macros -/

/-- `PAGEOFFSET`. -/
def Config.pageoffset (c : Config) (x : Word) : Word := x &&& (1#64 <<< c.pageShift - 1#64)

/-- `PAGEBASE`. -/
def Config.pagebase (c : Config) (x : Word) : Word := x &&& ~~~(1#64 <<< c.pageShift - 1#64)

/-- `PGD_MASK_L4`. -/
def Config.pgdMaskL4 (c : Config) : Word :=
  if mkKernelVersion 3 10 0 ≤ c.kernelVersion then 1#64 <<< c.vmallocInit.l4IndexSize - 1#64 else 0x1ff#64

def Config.pgdOffsetL4 (c : Config) (vaddr : Word) : Word := (vaddr >>> c.l4Shift) &&& c.pgdMaskL4
def Config.pudOffsetL4 (c : Config) (vaddr : Word) : Word :=
  (vaddr >>> c.l3Shift) &&& (1#64 <<< c.vmallocInit.l3IndexSize - 1#64)
def Config.pmdOffsetL4 (c : Config) (vaddr : Word) : Word :=
  (vaddr >>> c.l2Shift) &&& (1#64 <<< c.vmallocInit.l2IndexSize - 1#64)

/-- `BTOP(vaddr) & (info->ptrs_per_l1 - 1)`. -/
def Config.pteOffset (c : Config) (vaddr : Word) : Word :=
  (vaddr >>> c.pageShift) &&& (1#64 <<< c.vmallocInit.l1IndexSize - 1#64)

/-- `_PAGE_PRESENT`. -/
def Config.pagePresent (c : Config) : Word :=
  if mkKernelVersion 4 6 0 ≤ c.kernelVersion then 1#64 <<< 63
  else if mkKernelVersion 4 5 0 ≤ c.kernelVersion then 2#64 else 1#64

/-- `PAGE_PTE`: an entry of an upper level with this bit is a leaf for a huge page. -/
def pagePte : Word := 1#64 <<< 62

/-- `PAGEBASE(PTOB((pte & info->pte_rpn_mask) >> info->pte_rpn_shift))`. -/
def Config.frame (c : Config) (pte : Word) : Word :=
  c.pagebase (((pte &&& c.vmallocInit.pteRpnMask) >>> c.vmallocInit.pteRpnShift) <<< c.pageShift)

def swap64 (val : Word) (swap : Bool) : Word :=
  if swap then
    ((val &&& 0x00000000000000ff#64) <<< 56) ||| ((val &&& 0x000000000000ff00#64) <<< 40) |||
    ((val &&& 0x0000000000ff0000#64) <<< 24) ||| ((val &&& 0x00000000ff000000#64) <<< 8) |||
    ((val &&& 0x000000ff00000000#64) >>> 8) ||| ((val &&& 0x0000ff0000000000#64) >>> 24) |||
    ((val &&& 0x00ff000000000000#64) >>> 40) ||| ((val &&& 0xff00000000000000#64) >>> 56)
  else val

/-- Page table entries are big endian since 4.7. -/
def Machine.swap (m : Machine) : Bool := mkKernelVersion 4 7 0 ≤ m.kernelVersion && m.littleEndian

/-- `pgd_page_vaddr_l4`, `pud_page_vaddr_l4` and `pmd_page_vaddr_l4`. -/
def Machine.pageVaddrL4 (m : Machine) (maskedBits entry : Word) : Word :=
  let val := entry &&& ~~~maskedBits
  if mkKernelVersion 4 6 0 ≤ m.kernelVersion then val + m.kernelStart else val

/-- The entry of a table: the page of the table is read, and the entry is at the offset of its address. -/
def Machine.readEntry (m : Machine) (table index : Word) : Option Word :=
  (m.readpage (m.pagebase table)).map fun pageBuf =>
    swap64 (pageBuf (m.pageoffset (table + index * 8#64))) m.swap

/-! ## The walk -/

/-- A huge page. -/
def Machine.hugepage (m : Machine) (pte vaddr : Word) (pdshift : Nat) : Word :=
  m.frame pte + (vaddr &&& (1#64 <<< pdshift - 1#64))

/-- `ppc64_vtop_level4` from the PMD on. -/
def Machine.vtopPmd (m : Machine) (vaddr pudPte : Word) : Option Word := do
  let pmdPte ← m.readEntry (m.pageVaddrL4 m.vmallocInit.pudMaskedBits pudPte) (m.pmdOffsetL4 vaddr)
  if pmdPte = 0#64 then none
  else if pmdPte &&& pagePte ≠ 0#64 then some (m.hugepage pmdPte vaddr m.l2Shift)
  else do
    let pte ← m.readEntry (m.pageVaddrL4 m.vmallocInit.pmdMaskedBits pmdPte) (m.pteOffset vaddr)
    if pte &&& m.pagePresent = 0#64 then none
    else some (m.frame pte + m.pageoffset vaddr)

/-- `ppc64_vtop_level4` with the PGD entry. -/
def Machine.vtopPud (m : Machine) (vaddr pgdPte : Word) : Option Word :=
  if m.vmallocInit.l3IndexSize ≠ 0 then do
    let pudPte ← m.readEntry (m.pageVaddrL4 m.vmallocInit.pgdMaskedBits pgdPte) (m.pudOffsetL4 vaddr)
    if pudPte = 0#64 then none
    else if pudPte &&& pagePte ≠ 0#64 then some (m.hugepage pudPte vaddr m.l3Shift)
    else m.vtopPmd vaddr pudPte
  else m.vtopPmd vaddr pgdPte

def Machine.vtopLevel4 (m : Machine) (vaddr : Word) : Word :=
  (do
    let pgdPte ← m.readEntry m.kernelPgd (m.pgdOffsetL4 vaddr)
    if pgdPte = 0#64 then none
    else if pgdPte &&& pagePte ≠ 0#64 then some (m.hugepage pgdPte vaddr m.l4Shift)
    else m.vtopPud vaddr pgdPte).getD notPaddr

/-! ## The levels of a layout -/

/-- The entry at an address. -/
def Machine.entryAt (m : Machine) (a : Word) : Option Word :=
  (m.readpage (m.pagebase a)).map fun pageBuf => swap64 (pageBuf (m.pageoffset a)) m.swap

/-- What an entry above the page table says. -/
def Machine.decodeUpper (m : Machine) (maskedBits e : Word) : PageEntry Nat :=
  if e = 0#64 then .absent
  else if e.getLsbD 62 then .leaf (m.frame e).toNat
  else .table (m.pageVaddrL4 maskedBits e).toNat

def Machine.decodePte (m : Machine) (e : Word) : PageEntry Nat :=
  if e &&& m.pagePresent = 0#64 then .absent else .leaf (m.frame e).toNat

/-- A level with the size of its index. -/
def Machine.level (m : Machine) (shift indexSize : Nat) (decode : Word → PageEntry Nat) :
    PageLevel Nat where
  shift := shift
  entry table i := m.entryAt (BitVec.ofNat 64 (table + i % 2 ^ indexSize * 8))
  decode := decode

/-- The levels, without the third if its index has no bits: then the PGD entry is taken as the PUD
entry. -/
def Machine.levels (m : Machine) : List (PageLevel Nat × Nat) :=
  let l := m.vmallocInit
  let lower := [(m.level m.l2Shift l.l2IndexSize (m.decodeUpper l.pmdMaskedBits), l.l2IndexSize),
    (m.level m.l1Shift l.l1IndexSize m.decodePte, l.l1IndexSize)]
  if l.l3IndexSize ≠ 0 then
    (m.level m.l4Shift l.l4IndexSize (m.decodeUpper l.pgdMaskedBits), l.l4IndexSize) ::
      (m.level m.l3Shift l.l3IndexSize (m.decodeUpper l.pudMaskedBits), l.l3IndexSize) :: lower
  else (m.level m.l4Shift l.l4IndexSize (m.decodeUpper l.pudMaskedBits), l.l4IndexSize) :: lower

/-- Every table on the path is aligned to its own size. -/
def TablesAligned (va : Nat) : List (PageLevel Nat × Nat) → Nat → Prop
  | [], _ => True
  | l :: ls, t =>
    2 ^ (l.2 + 3) ∣ t ∧
      match l.1.lookup t va with
      | .table t' => TablesAligned va ls t'
      | _ => True

/-- **The index of the PGD entry is right**: with the mask of the version and in one page it is the index
that its width gives. -/
def Config.PgdIndexOk (c : Config) (vaddr : Word) : Prop :=
  let i := vaddr.toNat >>> c.l4Shift
  (if mkKernelVersion 3 10 0 ≤ c.kernelVersion then i % 2 ^ c.vmallocInit.l4IndexSize else i % 512) %
      2 ^ (c.pageShift - 3) = i % 2 ^ c.vmallocInit.l4IndexSize

def Machine.translation (m : Machine) (vaddr : Word) : Option Nat :=
  pageWalk vaddr.toNat (m.levels.map Prod.fst) m.kernelPgd.toNat

/-- **The walk is right for an address**: for every memory with aligned tables it gives the physical
address, or `NOT_PADDR` if there is none. -/
def Config.Walks (c : Config) (vaddr : Word) : Prop :=
  ∀ m : Machine, m.toConfig = c → TablesAligned vaddr.toNat m.levels m.kernelPgd.toNat →
    m.vtopLevel4 vaddr = paddr (m.translation vaddr)

end Ppc64

end Arch
