import Makedumpfile.Flat.Rearrange

/-!
# The Perl rearranger

`makedumpfile-R.pl` reads the flattened format on systems without makedumpfile. The script looks at
two things of the Perl that runs it: the width of its integers (`$value_64bits`) and the byte order
of the host.
-/

namespace Flat.Perl

open Lib

/-- The Perl that runs the script; `wide` has 64-bit integers. -/
structure Host where
  wide : Bool
  bigendian : Bool
  deriving Repr, DecidableEq

/-- `1 << n`: the bits above the width of an integer are lost. -/
def Host.shl (p : Host) (n : Nat) : Nat := 2 ^ n % 2 ^ (if p.wide then 64 else 32)

/-- The greatest length `sysread` takes: a greater one is negative as an integer of the host. -/
def Host.maxLength (p : Host) : Nat := if p.wide then 2 ^ 63 - 1 else 2 ^ 31 - 1

/-- The bytes one `write(2)` transfers at most. -/
def maxRwCount : Nat := 0x7ffff000

def is64bitsSystem (p : Host) : Bool := p.shl 31 < p.shl 33

/-- `is_bigendian`: `unpack("n", pack("l", 1234))`, the first two bytes in big-endian order. -/
def isBigendian (p : Host) : Bool :=
  leNat ((hostBytes p.bigendian 4 1234).take 2).reverse == 1234

/-- What the script comes to. `sysread` answers 0 at the end of the input, so that
`read_buf_from_stdin` goes on for ever. -/
inductive Outcome
  | completed (file : ByteFile)
  | failed
  | hangs
  deriving Repr, DecidableEq

/-- `read_64bits`: the high and the low half. -/
def read64bits (p : Host) (stdin : List UInt8) : Option ((Nat × Nat) × List UInt8) :=
  match readBufFromStdin stdin 8 with
  | none => none
  | some (buf, rest) =>
    let value1 := leNat (buf.take 4).reverse
    let value2 := leNat (buf.drop 4).reverse
    some (if isBigendian p then (value2, value1) else (value1, value2), rest)

def convert2valuesTo1value (p : Host) (high low : Nat) : Int :=
  if high < 0x80000000 then (high * p.shl 32 + low : Nat)
  else -((high ^^^ 0xffffffff) * p.shl 32 + (low ^^^ 0xffffffff) + 1 : Nat)

/-- The value of `seek_for_32bits_system`, with `Math::BigInt`. -/
def bigValue (high low : Nat) : Int :=
  if high < 0x80000000 then (2 ^ 32 * high + low : Nat)
  else -(2 ^ 32 * (high ^^^ 0xffffffff) + (low ^^^ 0xffffffff) + 1 : Nat)

/-- `seek_for_64bits_system` or `seek_for_32bits_system`: the offset of the next header; it is the
position of the file unless it is negative. -/
def seekForSystem (p : Host) (stdin : List UInt8) : Option (Int × List UInt8) :=
  match read64bits p stdin with
  | none => none
  | some ((high, low), rest) =>
    if is64bitsSystem p then some (convert2valuesTo1value p high low, rest)
    else some (bigValue high low, rest)

def getBufSize (p : Host) (stdin : List UInt8) : Option (Int × List UInt8) :=
  match read64bits p stdin with
  | none => none
  | some ((high, low), rest) => some (convert2valuesTo1value p high low, rest)

/-- The header of the next record: `seek_for_..bits_system`, then `get_buf_size`. -/
def readHeader (p : Host) (stdin : List UInt8) : Option ((Int × Int) × List UInt8) :=
  match seekForSystem p stdin with
  | none => none
  | some (seek, rest) =>
    match getBufSize p rest with
    | none => none
    | some (bufSize, rest) => some ((seek, bufSize), rest)

theorem read64bits_length {p : Host} {stdin rest : List UInt8} {v : Nat × Nat}
    (h : read64bits p stdin = some (v, rest)) : rest.length + 8 = stdin.length := by
  unfold read64bits at h
  split at h
  · cases h
  · rename_i hr
    simp only [Option.some.injEq, Prod.mk.injEq] at h
    obtain ⟨-, rfl⟩ := h
    exact readBufFromStdin_length hr

theorem seekForSystem_length {p : Host} {stdin rest : List UInt8} {v : Int}
    (h : seekForSystem p stdin = some (v, rest)) : rest.length + 8 = stdin.length := by
  unfold seekForSystem at h
  split at h
  · cases h
  · rename_i hr
    split at h <;> simp only [Option.some.injEq, Prod.mk.injEq] at h <;> obtain ⟨-, rfl⟩ := h <;>
      exact read64bits_length hr

theorem getBufSize_length {p : Host} {stdin rest : List UInt8} {v : Int}
    (h : getBufSize p stdin = some (v, rest)) : rest.length + 8 = stdin.length := by
  unfold getBufSize at h
  split at h
  · cases h
  · rename_i hr
    simp only [Option.some.injEq, Prod.mk.injEq] at h
    obtain ⟨-, rfl⟩ := h
    exact read64bits_length hr

theorem readHeader_length {p : Host} {stdin rest : List UInt8} {h : Int × Int}
    (hr : readHeader p stdin = some (h, rest)) : rest.length + 16 = stdin.length := by
  unfold readHeader at hr
  split at hr
  · cases hr
  · rename_i hs
    split at hr
    · cases hr
    · rename_i hb
      simp only [Option.some.injEq, Prod.mk.injEq] at hr
      obtain ⟨-, rfl⟩ := hr
      have := seekForSystem_length hs
      have := getBufSize_length hb
      omega

/-- The loop of `rearrange_dumpdata`, entered with a header read and the file positioned. -/
def rearrangeRecords (p : Host) (h : Int × Int) (stdin : List UInt8) (f : ByteFile) : Outcome :=
  if 0 ≤ h.1 ∧ 0 < h.2 then
    if (p.maxLength : Int) < h.2 then .failed
    else
      match _hr : readBufFromStdin stdin h.2.toNat with
      | none => .hangs
      | some (buf, rest) =>
        -- one `syswrite` for the whole record
        if min buf.length maxRwCount ≠ h.2.toNat then .failed
        else
          match _hh : readHeader p rest with
          | none => .hangs
          | some (h', rest) => rearrangeRecords p h' rest (f.pwrite h.1.toNat buf)
  else if h.1 = endFlagFlatHeader ∧ h.2 = endFlagFlatHeader then .completed f
  else .failed
termination_by stdin.length
decreasing_by
  have := readBufFromStdin_length _hr
  have := readHeader_length _hh
  omega

/-- `index($buf, $MAKEDUMPFILE_SIGNATURE)` is 0. -/
def readStartFlatHeader (stdin : List UInt8) : Option (Bool × List UInt8) :=
  match readBufFromStdin stdin maxSizeMdfHeader with
  | none => none
  | some (buf, rest) => some (buf.take 12 == makedumpfileSignature, rest)

/-- `rearrange_dumpdata` of the script, on the empty file it has opened. -/
def rearrangeDumpdata (p : Host) (stdin : List UInt8) : Outcome :=
  match readStartFlatHeader stdin with
  | none => .hangs
  | some (false, _) => .failed
  | some (true, rest) =>
    match readHeader p rest with
    | none => .hangs
    | some (h, rest) => rearrangeRecords p h rest []

end Flat.Perl
