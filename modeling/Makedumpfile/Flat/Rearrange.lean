import Makedumpfile.Output.Write

/-!
# The flattened format

`makedumpfile -F` sends to the standard output a start header, one record per `write_buffer` and an
end marker; `makedumpfile -R` (`rearrange_dumpdata`) turns such a stream into a dump file again.
-/

namespace Flat

open Lib Output

def maxSizeMdfHeader : Nat := 4096
def sizeBufStdin : Nat := 4096
def typeFlatHeader : Nat := 1
def versionFlatHeader : Nat := 1
def endFlagFlatHeader : Int := -1

/-- `MAKEDUMPFILE_SIGNATURE` ("makedumpfile"), 12 characters; the header's field has 16. -/
def makedumpfileSignature : List UInt8 :=
  [0x6d, 0x61, 0x6b, 0x65, 0x64, 0x75, 0x6d, 0x70, 0x66, 0x69, 0x6c, 0x65]

/-! ## The writer -/

/-- `struct makedumpfile_header` in its block of `MAX_SIZE_MDF_HEADER` bytes. -/
def startFlatHeader (be : Bool) : List UInt8 :=
  makedumpfileSignature ++ List.replicate 4 0 ++
    hostBytes be 8 (if be then typeFlatHeader else bswap64 typeFlatHeader) ++
    hostBytes be 8 (if be then versionFlatHeader else bswap64 versionFlatHeader) ++
    List.replicate (maxSizeMdfHeader - 32) 0

def writeStartFlatHeader (c : Opts) (o : Out) : Bool × Out :=
  if c.flagFlatten then writeAndCheckSpace c .stdout (startFlatHeader c.bigendian) o else (false, o)

/-- The end marker: both fields are -1, the same bytes in every order. -/
def endFlatHeader (be : Bool) : List UInt8 :=
  hostBytes be 8 (2 ^ 64 - 1) ++ hostBytes be 8 (2 ^ 64 - 1)

def writeEndFlatHeader (c : Opts) (o : Out) : Bool × Out :=
  if c.flagFlatten then writeAndCheckSpace c .stdout (endFlatHeader c.bigendian) o else (false, o)

/-- One `write_buffer` call of a dump writer: its offset and its data. -/
structure Call where
  offset : Nat
  buf : List UInt8
  deriving Repr, DecidableEq

/-- A run of `write_buffer` calls, given up at the first failure. -/
def writeCalls (c : Opts) (fd : Fd) : List Call → Out → Bool × Out
  | [], o => (true, o)
  | w :: ws, o =>
    match writeBuffer c fd w.offset w.buf o with
    | (false, o) => (false, o)
    | (true, o) => writeCalls c fd ws o

/-- The calls between the start header and the end marker. -/
def writeFlattened (c : Opts) (ws : List Call) (o : Out) : Bool × Out :=
  match writeStartFlatHeader c o with
  | (false, o) => (false, o)
  | (true, o) =>
    match writeCalls c .stdout ws o with
    | (false, o) => (false, o)
    | (true, o) => writeEndFlatHeader c o

/-! ## The reader -/

/-- `read_buf_from_stdin`: `n` bytes, or nothing once the stream has ended (after the timeout). -/
def readBufFromStdin (stdin : List UInt8) (n : Nat) : Option (List UInt8 × List UInt8) :=
  if n ≤ stdin.length then some (stdin.take n, stdin.drop n) else none

/-- A big-endian field of a header read on this host. -/
def headerField (be : Bool) (bs : List UInt8) : Int :=
  i64 (if be then hostNat be bs else bswap64 (hostNat be bs))

def readStartFlatHeader (be : Bool) (stdin : List UInt8) : Option (List UInt8) :=
  match readBufFromStdin stdin maxSizeMdfHeader with
  | none => none
  | some (buf, rest) =>
    -- `strcmp` stops at the terminating zero of the 16-byte field
    if buf.take 13 = makedumpfileSignature ++ [0] ∧
        headerField be ((buf.drop 16).take 8) = typeFlatHeader then some rest
    else none

def readFlatDataHeader (be : Bool) (stdin : List UInt8) : Option ((Int × Int) × List UInt8) :=
  match readBufFromStdin stdin 16 with
  | none => none
  | some (buf, rest) => some ((headerField be (buf.take 8), headerField be (buf.drop 8)), rest)

theorem readBufFromStdin_length {stdin buf rest : List UInt8} {n : Nat}
    (h : readBufFromStdin stdin n = some (buf, rest)) : rest.length + n = stdin.length := by
  unfold readBufFromStdin at h
  split at h
  · simp only [Option.some.injEq, Prod.mk.injEq] at h
    obtain ⟨-, rfl⟩ := h
    simp only [List.length_drop]; omega
  · cases h

theorem readFlatDataHeader_length {be : Bool} {stdin rest : List UInt8} {fdh : Int × Int}
    (h : readFlatDataHeader be stdin = some (fdh, rest)) : rest.length + 16 = stdin.length := by
  unfold readFlatDataHeader at h
  split at h
  · cases h
  · rename_i hr
    simp only [Option.some.injEq, Prod.mk.injEq] at h
    obtain ⟨-, rfl⟩ := h
    exact readBufFromStdin_length hr

/-- `tmp_read_size`. -/
def tmpReadSize (bufSize readSize : Int) : Nat :=
  if (sizeBufStdin : Int) < bufSize - readSize then sizeBufStdin else (bufSize - readSize).toNat

theorem tmpReadSize_pos {bufSize readSize : Int} (h : readSize < bufSize) :
    0 < tmpReadSize bufSize readSize := by
  unfold tmpReadSize sizeBufStdin; split <;> omega

/-- The inner loop of `rearrange_dumpdata`: copies one record in pieces. `read_size` is an `int`,
and `lseek` refuses a negative offset. -/
def copyRecord (c : Opts) (offset bufSize readSize : Int) (stdin : List UInt8) (o : Out) :
    Option (List UInt8 × Out) :=
  if _h : readSize < bufSize then
    match _hr : readBufFromStdin stdin (tmpReadSize bufSize readSize) with
    | none => none
    | some (buf, rest) =>
      if offset + readSize < 0 then none
      else
        match writeBuffer c .file (offset + readSize).toNat buf o with
        | (false, _) => none
        | (true, o) =>
          copyRecord c offset bufSize (int32 (readSize + tmpReadSize bufSize readSize)) rest o
  else some (stdin, o)
termination_by stdin.length
decreasing_by
  have := readBufFromStdin_length _hr
  have := tmpReadSize_pos _h
  omega

theorem copyRecord_length (c : Opts) (offset bufSize readSize : Int) (stdin : List UInt8) (o : Out)
    {rest : List UInt8} {o' : Out} (h : copyRecord c offset bufSize readSize stdin o = some (rest, o')) :
    rest.length ≤ stdin.length := by
  fun_induction copyRecord c offset bufSize readSize stdin o with
  | case1 => cases h
  | case2 => cases h
  | case3 => cases h
  | case4 readSize stdin o hlt buf rest' hr hoff o'' hw ih =>
    have := readBufFromStdin_length hr
    have := ih h
    omega
  | case5 =>
    simp only [Option.some.injEq, Prod.mk.injEq] at h
    rw [h.1]

/-- The outer loop of `rearrange_dumpdata`, entered with the header of a record. -/
def rearrangeRecords (c : Opts) (fdh : Int × Int) (stdin : List UInt8) (o : Out) : Option Out :=
  match _hc : copyRecord c fdh.1 fdh.2 0 stdin o with
  | none => none
  | some (stdin', o) =>
    match _hh : readFlatDataHeader c.bigendian stdin' with
    | none => none
    | some (fdh, stdin'') =>
      if 0 ≤ fdh.1 ∧ 0 < fdh.2 then rearrangeRecords c fdh stdin'' o
      else if fdh.1 = endFlagFlatHeader ∧ fdh.2 = endFlagFlatHeader then some o
      else none
termination_by stdin.length
decreasing_by
  have := copyRecord_length c _ _ _ _ _ _hc
  have := readFlatDataHeader_length _hh
  omega

/-- `rearrange_dumpdata` on a stream; `none` is the result `FALSE`. -/
def rearrangeDumpdata (c : Opts) (stdin : List UInt8) (o : Out) : Option Out :=
  match readStartFlatHeader c.bigendian stdin with
  | none => none
  | some stdin =>
    match readFlatDataHeader c.bigendian stdin with
    | none => none
    | some (fdh, stdin) => rearrangeRecords c fdh stdin o

end Flat
