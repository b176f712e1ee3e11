import Makedumpfile.Cycle
import Makedumpfile.Output.Cache
import Makedumpfile.Erase.Filter

/-!
# ELF dump files

`get_loads_dumpfile_cyclic`, the layout part of `write_elf_header` and `write_elf_pages_cyclic`.
Both passes walk the page frames of each PT_LOAD of the input in cycles (`PfnCycle.forEachCycle`). Runs
of 256 or more excluded pages split the segment.

The 2nd bitmap is `Info.dumpable`; `ARCH_PFN_OFFSET` is 0. Counters that are only printed are left
out.
-/

namespace Elf

open Lib Output

/-- `Elf64_Phdr`; the fields of an `Elf32_Phdr` are widened. -/
structure Phdr where
  pType : Nat
  pFlags : Nat := 0
  pOffset : Nat := 0
  pVaddr : Nat := 0
  pPaddr : Nat
  pFilesz : Nat
  pMemsz : Nat
  pAlign : Nat := 0
  deriving Repr, DecidableEq

def ptLoad : Nat := 1
def notPaddr : Nat := 2 ^ 64 - 1
def pfnExcluded : Nat := 256
def pnXnum : Nat := 65535

/-- What the ELF writer reads of `struct DumpInfo` and of the input: the program headers of the
vmcore and its bytes. `maxmem` is `MAXMEM` where the source is compiled for x86. -/
structure Info where
  pageSize : Nat
  pfnCyclic : Nat
  elf64 : Bool
  dumpable : Nat → Bool
  phdrs : List Phdr
  memory : ByteFile
  opts : Opts := {}
  maxmem : Option Nat := none
  pageSize_pos : 0 < pageSize
  pfnCyclic_pos : 0 < pfnCyclic

/-- The pages of most machines. -/
theorem four_kib_pos : 0 < 4096 := by decide

/-- The page frames of a byte of the bitmap. -/
theorem eight_pos : 0 < 8 := by decide

variable (c : Info)

/-- `unsigned long long` arithmetic. -/
def u64 (x : Nat) : Nat := x % 2 ^ 64

def paddrToPfn (x : Nat) : Nat := x / c.pageSize

def fracHead (load : Phdr) : Nat := c.pageSize - load.pPaddr % c.pageSize

def fracTail (load : Phdr) : Nat := u64 (load.pPaddr + load.pMemsz) % c.pageSize

/-- The first frame of the walk: a fractional first page is not part of it. -/
def pfnStart (load : Phdr) : Nat :=
  paddrToPfn c load.pPaddr +
    (if fracHead c load ≠ 0 ∧ fracHead c load ≠ c.pageSize then 1 else 0)

/-- The end of the walk: a fractional last page is part of it. -/
def pfnEnd (load : Phdr) : Nat :=
  paddrToPfn c (u64 (load.pPaddr + load.pMemsz)) + (if fracTail c load ≠ 0 then 1 else 0)

def cyclesOf (load : Phdr) : List PfnCycle :=
  PfnCycle.forEachCycle c.pfnCyclic true (pfnStart c load) (pfnEnd c load)

/-! ## Counting the segments -/

/-- The loop body on `(num_excluded, num_new_load)`. -/
def countPage (s : Nat × Nat) (pfn : Nat) : Nat × Nat :=
  if !c.dumpable pfn then (s.1 + 1, s.2)
  else (0, if s.1 ≥ pfnExcluded then s.2 + 1 else s.2)

def countLoad (numNewLoad : Nat) (load : Phdr) : Nat :=
  ((cyclesOf c load).foldl (fun s cycle => (cycle.pages (pfnStart c load)).foldl (countPage c) s)
    (0, numNewLoad + 1)).2

/-- `num_new_load` before it is cut to an `int`. -/
def numNewLoad : Nat :=
  c.phdrs.foldl (fun n load => if load.pType ≠ ptLoad then n else countLoad c n load) 0

def getLoadsDumpfileCyclic : Int := int32 (numNewLoad c)

/-! ## The layout of the headers -/

def ehdrSize : Nat := if c.elf64 then 64 else 52
def phdrSize : Nat := if c.elf64 then 56 else 32
def shdrSize : Nat := 64

/-- What `write_elf_header` computes: `e_phnum`, the `sh_info` of the section header for extended
numbering, and the end of the program headers as an `off_t`. -/
structure Layout where
  ePhnum : Int
  shInfo : Option Int
  phdrEnd : Int
  deriving Repr, DecidableEq

/-- The layout part of `write_elf_header`; `none` when it gives up. -/
def writeElfHeader : Option Layout :=
  let numLoads := getLoadsDumpfileCyclic c
  if numLoads = 0 then none
  else if c.elf64 then
    -- PT_NOTE is counted in the same `int`
    let numLoads := int32 (numLoads + 1)
    let ePhnum := if numLoads ≥ pnXnum then (pnXnum : Int) else numLoads % 2 ^ 16
    some { ePhnum, phdrEnd := ehdrSize c + phdrSize c * numLoads
           shInfo := if ePhnum = pnXnum then some numLoads else none }
  else
    let ePhnum := (1 + numLoads) % 2 ^ 16
    some { ePhnum, phdrEnd := ehdrSize c + phdrSize c * ePhnum, shInfo := none }

/-! ## Writing the segments -/

/-- The state of `write_elf_pages_cyclic`. `written` is a log of the PT_LOAD headers written, each
with the index of the input header it is for. -/
structure Writer where
  cdHeader : CacheData
  cdPage : CacheData
  out : Out
  filter : Erase.Filter
  offSegLoad : Nat
  written : List (Nat × Phdr) := []

/-- The bytes of a program header in the output. -/
def phdrBytes (p : Phdr) : List UInt8 :=
  let h := hostBytes c.opts.bigendian
  if c.elf64 then
    h 4 p.pType ++ h 4 p.pFlags ++ h 8 p.pOffset ++ h 8 p.pVaddr ++ h 8 p.pPaddr ++
      h 8 p.pFilesz ++ h 8 p.pMemsz ++ h 8 p.pAlign
  else
    h 4 p.pType ++ h 4 p.pOffset ++ h 4 p.pVaddr ++ h 4 p.pPaddr ++ h 4 p.pFilesz ++
      h 4 p.pMemsz ++ h 4 p.pFlags ++ h 4 p.pAlign

def writeElfPhdr (i : Nat) (load : Phdr) (w : Writer) : Option Writer :=
  match writeCache c.opts w.cdHeader (phdrBytes c load) w.out with
  | (false, _) => none
  | (true, cd, out) =>
    some { w with cdHeader := cd, out := out, written := w.written ++ [(i, load)] }

/-- The PT_LOAD of the input that holds `paddr` and, in the file, `hint`. -/
def paddrToOffset2 (paddr hint : Nat) : Nat :=
  match (c.phdrs.filter (·.pType = ptLoad)).find? fun p =>
    p.pPaddr ≤ paddr ∧ paddr < u64 (p.pPaddr + p.pFilesz) ∧ p.pOffset ≤ hint ∧
      hint < p.pOffset + p.pFilesz with
  | some p => paddr - p.pPaddr + p.pOffset
  | none => 0

/-- The loop of `write_elf_load_segment`, at offset `off` of the input. -/
def copyPages (paddr off size : Nat) (w : Writer) : Option Writer :=
  if _h : size = 0 then some w
  else
    let bufszWrite := min c.pageSize size
    let buf := c.memory.pread off bufszWrite
    if buf.length ≠ bufszWrite then none
    else
      let r := Erase.filterDataBuffer buf paddr bufszWrite w.filter
      match writeCache c.opts w.cdPage r.1 w.out with
      | (false, _) => none
      | (true, cd, out) =>
        copyPages (paddr + bufszWrite) (off + bufszWrite) (size - c.pageSize)
          { w with cdPage := cd, out := out, filter := r.2 }
termination_by size
decreasing_by
  have := c.pageSize_pos
  omega

def writeElfLoadSegment (paddr offMemory size : Nat) (w : Writer) : Option Writer :=
  let off := paddrToOffset2 c paddr offMemory
  if off = 0 then none else copyPages c paddr off size w

/-- The local variables of the walk over one PT_LOAD. -/
structure Seg where
  load : Phdr
  numExcluded : Nat := 0
  memsz : Nat := 0
  filesz : Nat := 0
  deriving Repr, DecidableEq

/-- A PT_LOAD header and its data. -/
def writeSegment (i offMemory : Nat) (load : Phdr) (w : Writer) : Option Writer :=
  (writeElfPhdr c i load w).bind fun w =>
    if load.pFilesz = 0 then some w
    else writeElfLoadSegment c load.pPaddr offMemory load.pFilesz w

/-- The bytes of frame `pfn` in the PT_LOAD: `frac_tail` for a fractional last page. -/
def sizeInLoad (load : Phdr) (pfn : Nat) : Nat :=
  if pfn = pfnEnd c load - 1 ∧ fracTail c load ≠ 0 then fracTail c load else c.pageSize

/-- The header of a segment that ends before a dumpable page. Without data its offset is 0. -/
def splitHeader (g : Seg) (offSegLoad : Nat) : Phdr :=
  { g.load with pMemsz := g.memsz, pFilesz := g.filesz
                pOffset := if g.filesz ≠ 0 then offSegLoad else 0 }

/-- The segment after `load`: it starts with a whole page. -/
def nextSeg (load : Phdr) : Seg :=
  let paddr := load.pPaddr + load.pMemsz
  let vaddr :=
    match c.maxmem with
    | some m => if paddr < m then load.pVaddr + load.pMemsz else load.pVaddr
    | none => load.pVaddr + load.pMemsz
  { load := { load with pPaddr := paddr, pVaddr := vaddr }
    numExcluded := 0, memsz := c.pageSize, filesz := c.pageSize }

/-- One page frame of the walk over input header `i`, which is `orig`. -/
def writePage (i : Nat) (orig : Phdr) (s : Writer × Seg) (pfn : Nat) : Option (Writer × Seg) :=
  let (w, g) := s
  let size := sizeInLoad c orig pfn
  if !c.dumpable pfn then
    some (w, { g with numExcluded := g.numExcluded + 1, memsz := g.memsz + size })
  else if g.numExcluded = 0 then
    some (w, { g with memsz := g.memsz + size, filesz := g.filesz + size })
  else if g.numExcluded < pfnExcluded then
    some (w, { g with memsz := g.memsz + size
                      filesz := g.filesz + (c.pageSize * g.numExcluded + size)
                      numExcluded := 0 })
  else
    let load := splitHeader g w.offSegLoad
    (writeSegment c i orig.pOffset load w).map fun w =>
      ({ w with offSegLoad := w.offSegLoad + load.pFilesz }, nextSeg c load)

/-- The variables at the start of the walk: the fractional first page is in the segment. -/
def initSeg (load : Phdr) : Seg :=
  let frac := if fracHead c load ≠ 0 ∧ fracHead c load ≠ c.pageSize then fracHead c load else 0
  { load, memsz := frac, filesz := frac }

def walkLoad (i : Nat) (orig : Phdr) (w : Writer) : Option (Writer × Seg) :=
  (cyclesOf c orig).foldlM
    (fun s cycle => (PfnCycle.pages (pfnStart c orig) cycle).foldlM (writePage c i orig) s)
    (w, initSeg c orig)

/-- "Write the last PT_LOAD": its offset is set even when it has no data. -/
def lastSegment (i : Nat) (orig : Phdr) (s : Writer × Seg) : Option Writer :=
  let (w, g) := s
  let load := { g.load with pMemsz := g.memsz, pFilesz := g.filesz, pOffset := w.offSegLoad }
  (writeSegment c i orig.pOffset load w).map fun w =>
    { w with offSegLoad := w.offSegLoad + load.pFilesz }

def writeLoad (w : Writer) (ip : Phdr × Nat) : Option Writer :=
  if ip.1.pType ≠ ptLoad ∨ ip.1.pPaddr = notPaddr then some w
  else (walkLoad c ip.2 ip.1 w).bind (lastSegment c ip.2 ip.1)

/-- The flushes at the end. -/
def flushWriter (w : Writer) : Option Writer :=
  match writeCacheBufsz c.opts w.cdHeader w.out with
  | (false, _) => none
  | (true, cdh, out) =>
    match writeCacheBufsz c.opts w.cdPage out with
    | (false, _) => none
    | (true, cdp, out) => some { w with cdHeader := cdh, cdPage := cdp, out := out }

def writeElfPagesCyclic (offsetLoadDumpfile : Nat) (w : Writer) : Option Writer :=
  let w := { w with offSegLoad := offsetLoadDumpfile
                    cdPage := { w.cdPage with offset := offsetLoadDumpfile } }
  (c.phdrs.zipIdx.foldlM (writeLoad c) w).bind (flushWriter c)

end Elf
