import Makedumpfile.Split.Info

/-!
# Putting the parts of a split dump together

`reassemble_dumpfile`: `get_splitting_info` reads the headers of the parts, sorts the parts and checks
that they cover the memory without a gap; `reassemble_kdump_header` copies the headers, the notes and
the bitmaps of the first part, the bitmaps also into the bitmap file; `reassemble_kdump_pages` copies
the pages of one part after the other, with new offsets in their descriptors.

The results of the `write` calls are those of `Out.sys`; a `read` for the bitmaps gives as many bytes
as `reads` says, but at least one as long as the file has bytes. The other reads are complete unless
the file ends. The page buffer is taken to be as large as the size in a descriptor.
-/

namespace Split

open Lib ByteFile Kdump Output

/-! ## The input -/

section Fields

variable (be : Bool) (dh kh : List UInt8)

def subHdrSize : Int := i32 (hostNat be (pread dh 432 4))

def bitmapBlocks : Nat := hostNat be (pread dh 436 4)

/-- `DUMP_DH_COMPRESSED_INCOMPLETE` is set. -/
def incomplete : Bool := (hostNat be (pread dh 424 4)).testBit 3

/-- `info->max_mapnr`. -/
def headerMaxMapnr : Nat :=
  if 6 ≤ headerVersion be dh then hostNat be (pread kh 96 8) else hostNat be (pread dh 440 4)

end Fields

/-- What `get_splitting_info` leaves behind: the parts in order, the contents of the files, and the
page size, `max_mapnr` and dump level of the part that was named first. -/
structure SplitSet where
  be : Bool
  files : Files
  parts : List SplittingInfo
  pageSize : Nat
  maxMapnr : Nat
  dumpLevel : Nat

/-- The parts follow one another from `startPfn` to `maxMapnr`. -/
def follow (maxMapnr : Nat) : Nat → List SplittingInfo → Bool
  | endPfn, [] => endPfn == maxMapnr
  | endPfn, p :: ps => p.startPfn == endPfn && follow maxMapnr p.endPfn ps

def checkSplittingInfo (maxMapnr : Nat) (parts : List SplittingInfo) : Bool :=
  follow maxMapnr 0 parts

/-- The end of `get_splitting_info` is `get_kdump_compressed_header_info`. -/
def getSplittingInfo (be : Bool) (files : Files) (names : List String) : Option SplitSet := do
  let name ← names.head?
  let infos ← storeSplittingInfo be files names
  let dh ← readDiskDumpHeader files name
  let kh ← readKdumpSubHeader be files name
  let parts := sortSplittingInfo infos
  guard (checkSplittingInfo (headerMaxMapnr be dh kh) parts)
  let first ← parts.head?
  let dh0 ← readDiskDumpHeader files first.nameDumpfile
  let _ ← readKdumpSubHeader be files first.nameDumpfile
  guard (1 ≤ headerVersion be dh0)
  return { be, files, parts, pageSize := (blockSize be dh).toNat
           maxMapnr := headerMaxMapnr be dh kh, dumpLevel := hostNat be (pread kh 8 4) }

variable (s : SplitSet) (c : Opts)

/-! ## Headers and bitmaps -/

/-- The header of the first part that is incomplete, or of the last part. -/
def commonHeader (be : Bool) (files : Files) : List SplittingInfo → Option (List UInt8)
  | [] => none
  | [p] => readDiskDumpHeader files p.nameDumpfile
  | p :: ps => do
    let dh ← readDiskDumpHeader files p.nameDumpfile
    if incomplete be dh then return dh else commonHeader be files ps

/-- The sub header without the split fields. -/
def clearSplit (kh : List UInt8) : List UInt8 :=
  pwrite (pwrite kh 12 (List.replicate 20 0)) 80 (List.replicate 16 0)

/-- One `lseek` and one `write`, which must take everything. -/
def writeOnce (offset : Nat) (buf : List UInt8) (o : Out) : Bool × Out :=
  match o.sys with
  | [] => (true, { o with file := pwrite o.file offset buf })
  | .wrote k :: sys =>
    let n := min (max k 1) buf.length
    (n == buf.length, { o with file := pwrite o.file offset (buf.take n), sys })
  | _ :: sys => (false, { o with sys })

def copySameData (src : ByteFile) (offset size : Nat) (o : Out) : Bool × Out :=
  match readAt src offset size with
  | none => (false, o)
  | some b => writeOnce offset b o

/-- The notes and the vmcoreinfo that the sub header tells of: offset and size. -/
def noteCopies (be : Bool) (dh kh : List UInt8) : List (Nat × Nat) :=
  let note :=
    if 4 ≤ headerVersion be dh then (hostNat be (pread kh 48 8), hostNat be (pread kh 56 8))
    else (0, 0)
  let vmcoreinfo :=
    if 3 ≤ headerVersion be dh then (hostNat be (pread kh 32 8), hostNat be (pread kh 40 8))
    else (0, 0)
  [note, vmcoreinfo].filter fun n => n.1 ≠ 0 ∧ n.2 ≠ 0

/-- The loop that reads the bitmaps, `len` bytes from `offset` on. At the end of the file `read` gives
no byte and no error. `none`: still running after `fuel` rounds. -/
def readLoop (f : ByteFile) (offset len : Nat) (reads : Nat → Nat) :
    Nat → Nat → Nat → Option (List UInt8)
  | 0, _, _ => none
  | fuel + 1, k, readSize =>
    if readSize < len then
      readLoop f offset len reads fuel (k + 1)
        (readSize + min (max (reads k) 1) (min (len - readSize) (f.length - (offset + readSize))))
    else some (pread f offset len)

/-- The loops that write the bitmaps: they end, and how many bytes are written. A `write` that gives
zero is tried again. -/
def writeBitmapLoop : List WriteRet → Nat → Bool × Nat × List WriteRet
  | sys, 0 => (true, 0, sys)
  | [], n => (true, n, [])
  | .wrote k :: sys, n =>
    let m := min (max k 1) n
    let r := writeBitmapLoop sys (n - m)
    (r.1, m + r.2.1, r.2.2)
  | .zero :: sys, n => writeBitmapLoop sys n
  | _ :: sys, _ => (false, 0, sys)

/-- The bitmaps in the dump file and in the bitmap file. -/
def writeBitmaps (offset : Nat) (buf : List UInt8) (o : Out) : Bool × Out × List UInt8 :=
  match writeBitmapLoop o.sys buf.length with
  | (false, n, sys) => (false, { o with file := pwrite o.file offset (buf.take n), sys }, [])
  | (true, n, sys) =>
    let o := { o with file := pwrite o.file offset (buf.take n), sys }
    let r := writeBitmapLoop o.sys buf.length
    (r.1, { o with sys := r.2.2 }, buf.take r.2.1)

/-- The offset and the length of the bitmaps: products of `int`s and of `unsigned int`s. -/
def bitmapPlace (be : Bool) (dh : List UInt8) : Int × Nat :=
  (i32 ((1 + subHdrSize be dh) * blockSize be dh), u32 (bitmapBlocks be dh * blockSize be dh))

/-- The part before the bitmaps: whether it succeeds, with the header and the first part's file. -/
def copyHeaders (o : Out) : Option (List UInt8 × ByteFile) × Out :=
  match s.parts.head?, commonHeader s.be s.files s.parts with
  | some p, some dh =>
    match writeOnce 0 dh o with
    | (false, o) => (none, o)
    | (true, o) =>
      match readKdumpSubHeader s.be s.files p.nameDumpfile, s.files p.nameDumpfile with
      | some kh, some f =>
        match writeOnce s.pageSize (clearSplit kh) o with
        | (false, o) => (none, o)
        | (true, o) =>
          match tryEach (fun n => copySameData f n.1 n.2) (noteCopies s.be dh kh) o with
          | (false, o) => (none, o)
          | (true, o) => (some (dh, f), o)
      | _, _ => (none, o)
  | _, _ => (none, o)

/-- The third component is the bitmap file. -/
def reassembleKdumpHeader (reads : Nat → Nat) (fuel : Nat) (o : Out) :
    Option (Bool × Out × List UInt8) :=
  match copyHeaders s o with
  | (none, o) => some (false, o, [])
  | (some (dh, f), o) =>
    let (offset, len) := bitmapPlace s.be dh
    if offset < 0 then some (false, o, [])
    else (readLoop f offset.toNat len reads fuel 0 0).map fun buf => writeBitmaps offset.toNat buf o

/-! ## Pages -/

/-- The variables of the page loop. -/
structure Copier where
  cdPd : CacheData
  cdData : CacheData
  offsetDataNew : Nat
  offsetPhOrg : Nat
  out : Out
  deriving Repr, DecidableEq

/-- The zero-filled page: whether there is one, and its descriptor. -/
structure ZeroPage where
  excludeZero : Bool
  pdZero : PageDesc
  deriving Repr, DecidableEq

/-- A descriptor and its data, as the part `f` has them. -/
def readOldPage (be : Bool) (f : ByteFile) (offsetPh : Nat) : Option (PageDesc × List UInt8) := do
  let b ← readAt f offsetPh sizeofPageDesc
  let pd := PageDesc.decode be b
  -- `lseek` takes the offset as a signed number
  guard (pd.offset < 2 ^ 63)
  let data ← readAt f pd.offset pd.size
  return (pd, data)

/-- The body of the page loop, for a dumpable page. -/
def copyPage (be : Bool) (z : ZeroPage) (f : ByteFile) (w : Copier) : Bool × Copier :=
  match readOldPage be f w.offsetPhOrg with
  | none => (false, w)
  | some (pd, data) =>
    if z.excludeZero ∧ pd.offset = z.pdZero.offset then
      match writeCache c w.cdPd (z.pdZero.encode be) w.out with
      | (ok, cdPd, out) => (ok, { w with cdPd, out, offsetPhOrg := w.offsetPhOrg + sizeofPageDesc })
    else
      match writeCache c w.cdPd ({ pd with offset := w.offsetDataNew }.encode be) w.out with
      | (false, cdPd, out) => (false, { w with cdPd, out })
      | (true, cdPd, out) =>
        match writeCache c w.cdData data out with
        | (ok, cdData, out) =>
          (ok, { cdPd, cdData, out, offsetDataNew := w.offsetDataNew + pd.size
                 offsetPhOrg := w.offsetPhOrg + sizeofPageDesc })

variable (dumpable : Nat → Bool)

/-- The dumpable page frames of a part. -/
def partPages (p : SplittingInfo) : List Nat :=
  (List.range' p.startPfn (p.endPfn - p.startPfn)).filter dumpable

def copyPart (z : ZeroPage) (offsetFirstPh : Nat) (p : SplittingInfo) (w : Copier) :
    Bool × Copier :=
  match s.files p.nameDumpfile with
  | none => (false, w)
  | some f =>
    tryEach (fun _ => copyPage c s.be z f) (partPages dumpable p)
      { w with offsetPhOrg := offsetFirstPh }

/-- `offset_first_ph`: the sum and the product are of `unsigned int`s. -/
def offsetFirstPh (be : Bool) (dh : List UInt8) : Nat :=
  u32 ((1 + subHdrSize be dh + bitmapBlocks be dh) * blockSize be dh)

def numDumpable : Nat := (List.range s.maxMapnr).countP dumpable

/-- `DL_EXCLUDE_ZERO` is bit 0 of the dump level. -/
def zeroPage (offsetData : Nat) : ZeroPage :=
  { excludeZero := s.dumpLevel.testBit 0
    pdZero := { offset := offsetData, size := s.pageSize, flags := 0 } }

/-- The state before the first part, with the zero-filled page in front of the data. -/
def startCopy (blockOrder offsetPh offsetData : Nat) (o : Out) : Bool × Copier :=
  let cd := prepareCacheData .file s.pageSize blockOrder
  let w : Copier := { cdPd := { cd with offset := offsetPh }, cdData := { cd with offset := offsetData }
                      offsetDataNew := offsetData, offsetPhOrg := offsetPh, out := o }
  if s.dumpLevel.testBit 0 then
    match writeCache c w.cdData (List.replicate s.pageSize 0) w.out with
    | (ok, cdData, out) =>
      (ok, { w with cdData, out, offsetDataNew := offsetData + s.pageSize })
  else (true, w)

/-- The erase information of one part. -/
def copyErasePart (p : SplittingInfo) (w : CacheData × Out) : Bool × CacheData × Out :=
  if p.sizeEraseinfo = 0 then (true, w)
  else
    match readEraseinfo s.files p with
    | none => (false, w)
    | some b => writeCache c w.1 b w.2

/-- The loop over the parts' erase information, and the update of the sub header `kh`. -/
def copyErase (kh : List UInt8) (cdData : CacheData) (o : Out) : Bool × Out :=
  let size := (s.parts.map (·.sizeEraseinfo)).sum
  match tryEach (copyErasePart s c) s.parts (cdData, o) with
  | (false, w) => (false, w.2)
  | (true, w) =>
    if size = 0 then (true, w.2)
    else
      match writeCacheBufsz c w.1 w.2 with
      | (false, _, o) => (false, o)
      | (true, _, o) =>
        writeBuffer c .file s.pageSize
          (pwrite kh 64 (hostBytes s.be 8 cdData.offset ++ hostBytes s.be 8 size)) o

/-- `kh` is `info->sub_header`; `dumpable` is what `is_dumpable` reads from the bitmap file. -/
def reassembleKdumpPages (blockOrder : Nat) (kh : List UInt8) (o : Out) : Bool × Out :=
  match s.parts.head?.bind fun p => readDiskDumpHeader s.files p.nameDumpfile with
  | none => (false, o)
  | some dh =>
    let offsetPh := offsetFirstPh s.be dh
    let offsetData := offsetPh + sizeofPageDesc * numDumpable s dumpable
    let z := zeroPage s offsetData
    match startCopy s c blockOrder offsetPh offsetData o with
    | (false, w) => (false, w.out)
    | (true, w) =>
      match tryEach (copyPart s c dumpable z offsetPh) s.parts w with
      | (false, w) => (false, w.out)
      | (true, w) =>
        match writeCacheBufsz c w.cdPd w.out with
        | (false, _, o) => (false, o)
        | (true, _, o) =>
          match writeCacheBufsz c w.cdData o with
          | (false, _, o) => (false, o)
          | (true, cdData, o) => copyErase s c kh cdData o

end Split
