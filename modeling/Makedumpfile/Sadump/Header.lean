import Makedumpfile.Sadump.Read
import Makedumpfile.Lib.Endian

/-!
# Finding the headers of a sadump image

The headers lie at multiples of the block size, which only the dump header tells. The search begins
with the default size and starts again with the announced one whenever the two differ. The buffers
stay what they are: a block shorter than a header leaves the rest of it from the search before.

Only little-endian machines read these images.
-/

namespace Sadump

open Lib ByteFile

def sadumpDefaultBlockSize : Nat := 4096

def sadumpSignature1 : Nat := 0x75646173

def sadumpSignature2 : Nat := 0x0000706d

def dumpPartHeaderMagicnumSize : Nat := 982

/-- `SADUMP_SIGNATURE` as far as `strncmp` compares it, up to the first zero. -/
def sadumpSignature : List UInt8 := [0x73, 0x61, 0x64, 0x75, 0x6d, 0x70, 0]

/-- `sizeof(struct sadump_header)`. -/
def sizeofSadumpHeader : Nat := 120

/-! ## The buffers -/

/-- A buffer of `malloc(SADUMP_DEFAULT_BLOCK_SIZE)`. -/
structure Buffer where
  bytes : List UInt8
  length_eq : bytes.length = sadumpDefaultBlockSize
  deriving DecidableEq

/-- A read into the buffer. The part that does not fit is not in it. -/
def Buffer.fill (buf : Buffer) (data : List UInt8) : Buffer where
  bytes := data.take sadumpDefaultBlockSize ++ buf.bytes.drop data.length
  length_eq := by
    have := buf.length_eq
    simp only [List.length_append, List.length_take, List.length_drop]
    omega

def Buffer.u32 (buf : Buffer) (off : Nat) : Nat := leNat (pread buf.bytes off 4)

def Buffer.u64 (buf : Buffer) (off : Nat) : Nat := leNat (pread buf.bytes off 8)

variable (buf : Buffer)

/-! The members of `struct sadump_part_header`. -/

def Buffer.signature1 : Nat := buf.u32 0
def Buffer.signature2 : Nat := buf.u32 4
def Buffer.sadumpId : List UInt8 := pread buf.bytes 88 16
def Buffer.diskSetId : List UInt8 := pread buf.bytes 104 16
def Buffer.setDiskSet : Nat := buf.u32 152
def Buffer.magicnum (i : Nat) : Nat := buf.u32 (168 + 4 * i)

/-! The members of `struct sadump_media_header`. -/

def Buffer.mediaSadumpId : List UInt8 := pread buf.bytes 0 16
def Buffer.mediaDiskSetId : List UInt8 := pread buf.bytes 16 16
def Buffer.sequentialNum : UInt8 := byteAt buf.bytes 48

/-! The members of `struct sadump_header`. -/

def Buffer.signature : List UInt8 := pread buf.bytes 0 8
def Buffer.headerVersion : Nat := buf.u32 8
def Buffer.blockSize : Nat := buf.u32 40
def Buffer.subHdrSize : Nat := buf.u32 48
def Buffer.bitmapBlocks : Nat := buf.u32 52
def Buffer.dumpableBitmapBlocks : Nat := buf.u32 56
def Buffer.maxMapnr : Nat := buf.u32 60
def Buffer.nrCpus : Nat := buf.u32 80
def Buffer.maxMapnr64 : Nat := buf.u64 88

/-- Both signatures of the partition header. -/
def Buffer.IsPartHeader : Prop := buf.signature1 = sadumpSignature1 ∧ buf.signature2 = sadumpSignature2

instance : Decidable buf.IsPartHeader := inferInstanceAs (Decidable (_ ∧ _))

def verifyMagicNumber : Bool :=
  (List.range' 1 (dumpPartHeaderMagicnumSize - 1)).all fun i =>
    buf.magicnum i == (buf.magicnum (i - 1) + 7) * 11 % 2 ^ 32

/-- The buffers; of the disk set header, which `realloc` resizes, the size. -/
structure Headers where
  sph : Buffer
  sh : Buffer
  smh : Buffer
  sdhSize : Nat

/-- A `read_device`: the size of the buffer and the number of bytes that came into it. -/
structure DeviceRead where
  size : Nat
  bytes : Nat

/-- The state of the search: the buffers, the offset on the device, and so far every read and every
divisor. -/
structure Detection extends Headers where
  offset : Nat := 0
  reads : List DeviceRead := []
  divisors : List Nat := []

/-! ## The search -/

/-- The return values other than `TRUE`. -/
inductive Failure
  | false
  | error
  deriving Repr, DecidableEq

/-- What is left in `si` and `info` on success; `blockSize` is the local variable. -/
structure Kept where
  flagSadump : FormatType
  blockSize : Nat
  maxMapnr : Nat
  subHdrOffset : Nat
  smramCpuStateSize : Nat
  dataOffset : Nat
  deriving Repr, DecidableEq

/-- The ways out of one search; `unknown` is `SADUMP_UNKNOWN`. -/
inductive Found
  | unknown
  | restart (blockSize : Nat)
  | kept (k : Kept)

/-- `realloc` may fail for sizes that are not in `alloc`. -/
abbrev Alloc := Nat → Bool

abbrev Detect := EStateM Failure Detection

variable (dev : ByteFile) (alloc : Alloc)

/-- `lseek` takes the offset for an `off_t`. A short read is in the buffer too. -/
def readDevice (size bytes : Nat) (store : List UInt8 → Headers → Headers) (ret : Failure) :
    Detect (List UInt8) := fun s =>
  let data := if s.offset < 2 ^ 63 then pread dev s.offset bytes else []
  let s' := { s with
    toHeaders := store data s.toHeaders
    reads := ⟨size, data.length⟩ :: s.reads }
  if s.offset < 2 ^ 63 ∧ data.length = bytes then
    .ok data { s' with offset := (s.offset + bytes) % 2 ^ 64 }
  else .error ret s'

def readSph (bytes : Nat) (ret : Failure) : Detect (List UInt8) :=
  readDevice dev sadumpDefaultBlockSize bytes (fun data h => { h with sph := h.sph.fill data }) ret

def readSmh (bytes : Nat) (ret : Failure) : Detect (List UInt8) :=
  readDevice dev sadumpDefaultBlockSize bytes (fun data h => { h with smh := h.smh.fill data }) ret

def readSh (bytes : Nat) (ret : Failure) : Detect (List UInt8) :=
  readDevice dev sadumpDefaultBlockSize bytes (fun data h => { h with sh := h.sh.fill data }) ret

/-- A read of a local `uint32_t`, after which the offset goes back. -/
def readU32 : Detect Nat := do
  let data ← readDevice dev 4 4 (fun _ h => h) .false
  modify fun s => { s with offset := s.offset - 4 }
  return leNat data

/-- The partition header and the format it tells; the header of a media backup comes first. -/
def readPartHeader (blockSize : Nat) : Detect (Option FormatType) := do
  let _ ← readSph dev blockSize .error
  let s ← get
  if s.sph.IsPartHeader then
    return some (if s.sph.setDiskSet = 0 then .singlePartition else .diskset)
  else
    modify fun s => { s with offset := 0 }
    let _ ← readSmh dev blockSize .error
    let _ ← readSph dev blockSize .error
    let s ← get
    return if s.sph.IsPartHeader then some .mediaBackup else none

/-- The disk set header, which may have several blocks; `realloc` makes room for these. -/
def readDiskSetHeader (blockSize : Nat) : Detect Unit := do
  let s ← get
  if s.sph.setDiskSet ≠ 1 then throw .false
  let headerBlocks ← readU32 dev
  let headerSize := headerBlocks * blockSize
  if blockSize < headerSize then
    if alloc headerSize then modify fun s => { s with sdhSize := headerSize }
    else throw .false
  let s ← get
  let _ ← readDevice dev s.sdhSize headerSize (fun _ h => h) .error

def readSetHeader (flag : FormatType) (blockSize : Nat) : Detect Unit :=
  if flag = .diskset then readDiskSetHeader dev alloc blockSize else pure ()

/-- The media header must belong to the partition header and be that of the first medium. -/
def Headers.MediaOk (h : Headers) : Prop :=
  h.sph.sadumpId = h.smh.mediaSadumpId ∧ h.sph.diskSetId = h.smh.mediaDiskSetId ∧
    h.smh.sequentialNum = 1

instance (h : Headers) : Decidable h.MediaOk := inferInstanceAs (Decidable (_ ∧ _ ∧ _))

/-- The size of the SMRAM state of one CPU, which the sub header begins with. -/
def readSmramCpuStateSize (blockSize : Nat) : Detect Nat := do
  let s ← get
  if 0 < s.sh.subHdrSize then
    let total ← readU32 dev
    modify fun s => { s with
      divisors := s.sh.nrCpus :: s.divisors
      offset := (s.offset + s.sh.subHdrSize * blockSize) % 2 ^ 64 }
    return total / s.sh.nrCpus
  else return 0

/-- What the dump header says about the rest, once its block size is the one in use. -/
def readSubHeader (flag : FormatType) (blockSize : Nat) : Detect Kept := do
  let subHdrOffset := (← get).offset
  let smramCpuStateSize ← readSmramCpuStateSize dev blockSize
  let s ← get
  if s.sh.bitmapBlocks = 0 then throw .false
  if s.sh.dumpableBitmapBlocks = 0 then throw .false
  let bitmapLen := blockSize * s.sh.bitmapBlocks
  let dumpableBitmapLen := blockSize * s.sh.dumpableBitmapBlocks
  return {
    flagSadump := flag
    blockSize := blockSize
    maxMapnr := if s.sh.headerVersion = 0 then s.sh.maxMapnr else s.sh.maxMapnr64
    subHdrOffset := subHdrOffset
    smramCpuStateSize := smramCpuStateSize
    dataOffset := (s.offset + bitmapLen + dumpableBitmapLen) % 2 ^ 64 }

/-- The dump header, and what must be true of it before its block size is looked at. -/
def readDumpHeader (flag : FormatType) (blockSize : Nat) : Detect Unit := do
  let _ ← readSh dev blockSize .false
  let s ← get
  if s.sh.signature.take 7 ≠ sadumpSignature then throw .false
  if flag = .mediaBackup ∧ ¬ s.MediaOk then throw .false

/-- From the label `restart` on. -/
def detect (blockSize : Nat) : Detect Found := do
  match ← readPartHeader dev blockSize with
  | none => return .unknown
  | some flag =>
    let s ← get
    if ¬ verifyMagicNumber s.sph then throw .false
    readSetHeader dev alloc flag blockSize
    readDumpHeader dev flag blockSize
    let s ← get
    if s.sh.blockSize ≠ blockSize then return .restart s.sh.blockSize
    return .kept (← readSubHeader dev flag blockSize)

/-- `read_sadump_header` with room for `fuel` searches. -/
def readSadumpHeader : Nat → Nat → Detection → Option (EStateM.Result Failure Detection (Option Kept))
  | 0, _, _ => none
  | fuel + 1, blockSize, s =>
    match detect dev alloc blockSize { s with offset := 0 } with
    | .ok (.restart announced) s => readSadumpHeader fuel announced s
    | .ok .unknown s => some (.ok none s)
    | .ok (.kept k) s => some (.ok (some k) s)
    | .error ret s => some (.error ret s)

end Sadump
