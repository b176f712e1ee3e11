import Makedumpfile.Elf.Pages
import Makedumpfile.Erase.Text

/-!
# The areas of an ELF dump file

The writes of `write_elf_header`, the note of `write_elf_eraseinfo`, and the run of the three ELF
writers in `writeout_dumpfile`. The place for the program headers and for the eraseinfo note is
reserved before the pages are written: from the count of segments and from the estimate of
`get_size_eraseinfo`.

Sums of the sizes of texts that are in memory do not wrap; `p_filesz` does.
-/

namespace Elf

open Lib Output Erase

def roundup (x y : Nat) : Nat := (x + (y - 1)) / y * y

def ptNote : Nat := 4
def shnUndef : Nat := 0
def shtNull : Nat := 0

/-- `sizeof(Elf64_Nhdr)` and `sizeof(Elf32_Nhdr)`. -/
def nhdrSize : Nat := 12

/-- `ERASEINFO_NOTE_NAME`, with its final zero. -/
def eraseinfoNoteName : List UInt8 := strBytes "ERASEINFO" ++ [0]

variable (c : Info)

/-- The PT_NOTE that `write_elf_header` copies: the first one. -/
def noteMemory : Option Phdr := c.phdrs.find? (·.pType = ptNote)

/-- `size_pt_note_memory`: `get_elf_info` sets it for each PT_NOTE, so the last one counts. -/
def sizePtNote : Nat := ((c.phdrs.filter (·.pType = ptNote)).getLast?.map (·.pFilesz)).getD 0

/-! ## write_elf_header -/

def put (off : Nat) (b : List UInt8) (w : Writer) : Option Writer :=
  match writeBuffer c.opts w.cdHeader.fd off b w.out with
  | (false, _) => none
  | (true, out) => some { w with out := out }

def reserveLoop (off stop : Nat) (w : Writer) : Option Writer :=
  if _h : off < stop then
    let n := min c.pageSize (stop - off)
    (put c off (List.replicate n 0) w).bind (reserveLoop (off + n) stop)
  else some w
termination_by stop - off
decreasing_by
  have := c.pageSize_pos
  omega

def reserveDiskspace (start stop : Nat) (w : Writer) : Option Writer :=
  if c.opts.flagFlatten then some w else reserveLoop c start stop w

/-- The ELF header of the input with the fields that `write_elf_header` sets. -/
def ehdrBytes (ePhnum : Int) (shoff : Option Nat) : List UInt8 :=
  let h := hostBytes c.opts.bigendian
  let phnum := h 2 ePhnum.toNat
  let ehdr := c.memory.pread 0 (ehdrSize c)
  if c.elf64 then
    let ehdr := ByteFile.pwrite ehdr 56 phnum
    match shoff with
    | none => ehdr
    | some off =>
      -- e_shoff, and e_shentsize, e_shnum, e_shstrndx
      ByteFile.pwrite (ByteFile.pwrite ehdr 40 (h 8 off)) 58 (h 2 shdrSize ++ h 2 1 ++ h 2 shnUndef)
  else ByteFile.pwrite ehdr 44 phnum

/-- The section header for extended numbering. -/
def shdrBytes (shInfo : Int) : List UInt8 :=
  let h := hostBytes c.opts.bigendian
  h 4 0 ++ h 4 shtNull ++ h 8 0 ++ h 8 0 ++ h 8 0 ++ h 8 1 ++ h 4 shnUndef ++
    h 4 (shInfo % 2 ^ 32).toNat ++ h 8 0 ++ h 8 0

/-- What `write_elf_header` leaves in `info`, and the PT_NOTE header it wrote. -/
structure Header where
  note : Phdr
  offsetNoteDumpfile : Nat
  offsetLoadDumpfile : Nat
  sizeElfEraseinfo : Nat

/-- The size of the notes with the place for the eraseinfo note. -/
def noteFilesz (sizeNote sizeEraseinfo : Nat) : Nat :=
  if sizeEraseinfo = 0 then sizeNote
  else u64 (sizeNote + (nhdrSize + (roundup eraseinfoNoteName.length 4 + roundup sizeEraseinfo 4)))

/-- The section header, where it is needed, is between the program headers and the notes. -/
def offsetNote (l : Layout) : Nat :=
  l.phdrEnd.toNat + if l.shInfo.isSome then shdrSize else 0

def writeShdr (l : Layout) (w : Writer) : Option Writer :=
  match l.shInfo with
  | none => some w
  | some n => put c l.phdrEnd.toNat (shdrBytes c n) w

/-- `write_elf_header` for the layout `l`. A layout whose headers end before they start stops at an
`assert` (in the flattened format it makes a record that cannot be rearranged). -/
def writeElfHeaderAt (l : Layout) (sizeEraseinfo : Nat) (w : Writer) : Option (Header × Writer) :=
  (noteMemory c).bind fun mem =>
    if l.phdrEnd ≤ ehdrSize c then none
    else
      let shoff := l.shInfo.map fun _ => l.phdrEnd.toNat
      let note := { mem with
        pOffset := offsetNote l, pFilesz := noteFilesz mem.pFilesz sizeEraseinfo }
      let w := { w with cdHeader := { w.cdHeader with offset := ehdrSize c } }
      (reserveDiskspace c (ehdrSize c) l.phdrEnd.toNat w).bind fun w =>
      (writeShdr c l w).bind fun w =>
      match writeCache c.opts w.cdHeader (phdrBytes c note) w.out with
      | (false, _) => none
      | (true, cd, out) =>
        (put c 0 (ehdrBytes c l.ePhnum shoff) { w with cdHeader := cd, out := out }).bind fun w =>
        let buf := c.memory.pread mem.pOffset mem.pFilesz
        if buf.length ≠ mem.pFilesz then none
        else
          (put c (offsetNote l) buf w).map fun w =>
            ({ note, offsetNoteDumpfile := offsetNote l
               offsetLoadDumpfile := offsetNote l + note.pFilesz
               sizeElfEraseinfo := sizeEraseinfo }, w)

/-! ## write_elf_eraseinfo -/

def nhdrBytes (namesz descsz : Nat) : List UInt8 :=
  let h := hostBytes c.opts.bigendian
  h 4 namesz ++ h 4 descsz ++ h 4 0

/-- The note starts behind the notes of the input, rounded up. -/
def offsetEraseinfoNote (h : Header) : Nat := h.offsetNoteDumpfile + roundup (sizePtNote c) 4

/-- The result of the last write, `write_cache_zero`, is not looked at. -/
def writeElfEraseinfo (h : Header) (sizeStr : String) (w : Writer) : Option Writer :=
  if h.sizeElfEraseinfo = 0 then some w
  else
    let cd := { w.cdHeader with offset := offsetEraseinfoNote c h }
    match writeCache c.opts cd (nhdrBytes c eraseinfoNoteName.length h.sizeElfEraseinfo) w.out with
    | (false, _) => none
    | (true, cd, out) =>
      let name := eraseinfoNoteName ++
        List.replicate (roundup eraseinfoNoteName.length 4 - eraseinfoNoteName.length) 0
      match writeCache c.opts cd name out with
      | (false, _) => none
      | (true, cd, out) =>
        (writeEraseinfo c.opts sizeStr w.filter.eraseInfo cd out).map fun (sizeWritten, cd, out) =>
          if sizeWritten < h.sizeElfEraseinfo then
            let r := writeCacheZero c.opts cd (h.sizeElfEraseinfo - sizeWritten) out
            { w with cdHeader := r.2.1, out := r.2.2 }
          else { w with cdHeader := cd, out := out }

/-! ## The areas -/

/-- The bytes of the file from `start` up to `stop`. -/
structure Area where
  start : Nat
  stop : Nat
  deriving Repr, DecidableEq

def Area.Mem (a : Area) (x : Nat) : Prop := a.start ≤ x ∧ x < a.stop

def Area.Disjoint (a b : Area) : Prop := ∀ x, ¬ (a.Mem x ∧ b.Mem x)

def Area.Within (a b : Area) : Prop := ∀ x, a.Mem x → b.Mem x

/-- Where the writers put their data, and the range that the PT_NOTE header announces. -/
structure Areas where
  ehdr : Area
  phdrs : Area
  shdr : Area
  notes : Area
  eraseinfo : Area
  loads : Area
  announced : Area
  deriving Repr, DecidableEq

def Areas.list (a : Areas) : List Area := [a.ehdr, a.phdrs, a.shdr, a.notes, a.eraseinfo, a.loads]

/-- A field of a program header in the file. -/
def field (x : Nat) : Nat := if c.elf64 then x % 2 ^ 64 else x % 2 ^ 32

/-- The areas when the headers and pages are written, in the state `w`, and `w'` is the state after
`write_elf_eraseinfo`: each cache has written from where it started up to its offset. -/
def areasOf (l : Layout) (h : Header) (sizeNote : Nat) (w w' : Writer) : Areas :=
  { ehdr := ⟨0, ehdrSize c⟩
    phdrs := ⟨ehdrSize c, w.cdHeader.offset⟩
    shdr := ⟨l.phdrEnd.toNat, offsetNote l⟩
    notes := ⟨h.offsetNoteDumpfile, h.offsetNoteDumpfile + sizeNote⟩
    eraseinfo := if h.sizeElfEraseinfo = 0 then ⟨0, 0⟩
      else ⟨offsetEraseinfoNote c h, w'.cdHeader.pos⟩
    loads := ⟨h.offsetLoadDumpfile, w.cdPage.offset⟩
    announced := ⟨field c h.note.pOffset, field c h.note.pOffset + field c h.note.pFilesz⟩ }

/-- The headers and the pages, for an estimate of the text. -/
def writeHeaderAndPages (sizeEraseinfo : Nat) (w : Writer) : Option (Layout × Header × Writer) :=
  (writeElfHeader c).bind fun l =>
    (writeElfHeaderAt c l sizeEraseinfo w).bind fun (h, w) =>
      (writeElfPagesCyclic c h.offsetLoadDumpfile w).map fun w => (l, h, w)

/-- The ELF branch of `writeout_dumpfile`. -/
def writeoutElf (fuel : Nat) (sizeStr : String) (w : Writer) : Option Areas :=
  (getSizeEraseinfo fuel w.filter).bind fun sizeEraseinfo =>
    (writeHeaderAndPages c sizeEraseinfo w).bind fun (l, h, w) =>
      (writeElfEraseinfo c h sizeStr w).map fun w' =>
        areasOf c l h ((noteMemory c).map (·.pFilesz) |>.getD 0) w w'

end Elf
