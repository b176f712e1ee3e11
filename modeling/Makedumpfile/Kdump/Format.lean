import Makedumpfile.Lib.Bitmap
import Makedumpfile.Output.Cache

/-!
# The kdump-compressed format

The records of `diskdump_mod.h` as they stand in the file, and the page data: a page is stored as the
first of zlib, lzo, snappy and zstd that was asked for and makes it smaller leaves it, or as it is.

    block 0                the header (`disk_dump_header`)
    block 1                the sub header, then the notes
    block 1 + sub_hdr_size the 1st bitmap, then the 2nd bitmap: bitmap_blocks in all
    after these            a descriptor for each dumpable page, then the page data
-/

namespace Kdump

open Lib Output ByteFile

/-! ## Descriptors -/

/-- `page_desc_t`. -/
structure PageDesc where
  offset : Nat
  size : Nat
  flags : Nat
  pageFlags : Nat := 0
  deriving Repr, DecidableEq

/-- `sizeof(page_desc_t)`. -/
def sizeofPageDesc : Nat := 24

def PageDesc.encode (be : Bool) (pd : PageDesc) : List UInt8 :=
  hostBytes be 8 pd.offset ++ (hostBytes be 4 pd.size ++
    (hostBytes be 4 pd.flags ++ hostBytes be 8 pd.pageFlags))

def PageDesc.decode (be : Bool) (b : List UInt8) : PageDesc :=
  { offset := hostNat be (pread b 0 8)
    size := hostNat be (pread b 8 4)
    flags := hostNat be (pread b 12 4)
    pageFlags := hostNat be (pread b 16 8) }

/-- The values fit their types. -/
structure PageDesc.Fits (pd : PageDesc) : Prop where
  offset : pd.offset < 2 ^ 64
  size : pd.size < 2 ^ 32
  flags : pd.flags < 2 ^ 32
  pageFlags : pd.pageFlags < 2 ^ 64

@[simp] theorem PageDesc.length_encode (be : Bool) (pd : PageDesc) :
    (pd.encode be).length = sizeofPageDesc := by
  simp [encode, sizeofPageDesc]

theorem PageDesc.decode_encode (be : Bool) {pd : PageDesc} (h : pd.Fits) :
    decode be (pd.encode be) = pd := by
  have e1 : pread (pd.encode be) 0 8 = hostBytes be 8 pd.offset := by
    simp [encode, pread]
  have e2 : pread (pd.encode be) 8 4 = hostBytes be 4 pd.size := by
    simp [encode, pread]
  have e3 : pread (pd.encode be) 12 4 = hostBytes be 4 pd.flags := by
    simp [encode, pread, List.drop_append, List.drop_eq_nil_of_le]
  have e4 : pread (pd.encode be) 16 8 = hostBytes be 8 pd.pageFlags := by
    simp [encode, pread, List.drop_append, List.drop_eq_nil_of_le, List.take_of_length_le]
  unfold decode
  rw [e1, e2, e3, e4, hostNat_hostBytes be h.offset, hostNat_hostBytes be h.size,
    hostNat_hostBytes be h.flags, hostNat_hostBytes be h.pageFlags]

/-! ## Headers -/

/-- `struct disk_dump_header`. The fields of the diskdump facility that nothing sets are zero. -/
structure DiskDumpHeader where
  headerVersion : Nat
  utsname : Vector UInt8 390
  timestamp : Vector UInt8 16
  status : Nat
  blockSize : Nat
  subHdrSize : Int
  bitmapBlocks : Nat
  maxMapnr : Nat
  nrCpus : Nat
  deriving Repr, DecidableEq

/-- `KDUMP_SIGNATURE`, the text "KDUMP" and three blanks. -/
def kdumpSignature : List UInt8 := [0x4b, 0x44, 0x55, 0x4d, 0x50, 0x20, 0x20, 0x20]

/-- `sizeof(struct disk_dump_header)`. -/
def sizeofDiskDumpHeader : Nat := 464

/-- An `int` as an unsigned value of 32 bits. -/
def u32 (v : Int) : Nat := (v % 2 ^ 32).toNat

def DiskDumpHeader.encode (be : Bool) (dh : DiskDumpHeader) : List UInt8 :=
  (kdumpSignature ++ hostBytes be 4 dh.headerVersion ++ dh.utsname.toList ++ List.replicate 6 0 ++
    dh.timestamp.toList ++ hostBytes be 4 dh.status) ++
  (hostBytes be 4 dh.blockSize ++ (hostBytes be 4 (u32 dh.subHdrSize) ++
    (hostBytes be 4 dh.bitmapBlocks ++ (hostBytes be 4 dh.maxMapnr ++ List.replicate 16 0 ++
      hostBytes be 4 dh.nrCpus))))

/-- `struct kdump_sub_header`. -/
structure KdumpSubHeader where
  physBase : Nat
  dumpLevel : Nat
  split : Nat := 0
  startPfn : Nat := 0
  endPfn : Nat := 0
  offsetVmcoreinfo : Nat := 0
  sizeVmcoreinfo : Nat := 0
  offsetNote : Nat := 0
  sizeNote : Nat := 0
  offsetEraseinfo : Nat := 0
  sizeEraseinfo : Nat := 0
  startPfn64 : Nat := 0
  endPfn64 : Nat := 0
  maxMapnr64 : Nat
  deriving Repr, DecidableEq

/-- `sizeof(struct kdump_sub_header)`. -/
def sizeofKdumpSubHeader : Nat := 104

def KdumpSubHeader.encode (be : Bool) (kh : KdumpSubHeader) : List UInt8 :=
  (hostBytes be 8 kh.physBase ++ hostBytes be 4 kh.dumpLevel ++ hostBytes be 4 kh.split ++
    hostBytes be 8 kh.startPfn ++ hostBytes be 8 kh.endPfn ++ hostBytes be 8 kh.offsetVmcoreinfo ++
    hostBytes be 8 kh.sizeVmcoreinfo ++ hostBytes be 8 kh.offsetNote ++
    hostBytes be 8 kh.sizeNote ++ hostBytes be 8 kh.offsetEraseinfo ++
    hostBytes be 8 kh.sizeEraseinfo) ++
  (hostBytes be 8 kh.startPfn64 ++ (hostBytes be 8 kh.endPfn64 ++ hostBytes be 8 kh.maxMapnr64))

@[simp] theorem DiskDumpHeader.length_encode (be : Bool) (dh : DiskDumpHeader) :
    (dh.encode be).length = sizeofDiskDumpHeader := by
  simp only [encode, List.length_append, length_hostBytes, Vector.length_toList,
    List.length_replicate]
  rfl

@[simp] theorem KdumpSubHeader.length_encode (be : Bool) (kh : KdumpSubHeader) :
    (kh.encode be).length = sizeofKdumpSubHeader := by
  simp [encode, sizeofKdumpSubHeader]

/-! ## Page data -/

def compressedZlib : Nat := 0x1
def compressedLzo : Nat := 0x2
def compressedSnappy : Nat := 0x4
def compressedZstd : Nat := 0x20

/-- A compression library. `decompress n` is given room for `n` bytes. -/
structure Codec where
  compress : List UInt8 → Option (List UInt8)
  decompress : Nat → List UInt8 → Option (List UInt8)

/-- The libraries built in, and the result of `init_lzo`. -/
structure Libs where
  zlib : Codec
  lzo : Option Codec := none
  snappy : Option Codec := none
  zstd : Option Codec := none
  flagLzoSupport : Bool := true

def Libs.lzoSupported (l : Libs) : Option Codec := if l.flagLzoSupport then l.lzo else none

/-- One arm of the chain: the compressed page, when it was asked for, succeeds and gets smaller. -/
def attempt (flagCompress flag pageSize : Nat) (codec : Option Codec) (buf : List UInt8) :
    Option (List UInt8) :=
  if flagCompress &&& flag = 0 then none
  else (codec.bind (·.compress buf)).filter fun z => z.length < pageSize

/-- The flags and the data of a page. -/
def compressPage (l : Libs) (flagCompress pageSize : Nat) (buf : List UInt8) : Nat × List UInt8 :=
  match attempt flagCompress compressedZlib pageSize (some l.zlib) buf with
  | some z => (compressedZlib, z)
  | none =>
    match attempt flagCompress compressedLzo pageSize l.lzoSupported buf with
    | some z => (compressedLzo, z)
    | none =>
      match attempt flagCompress compressedSnappy pageSize l.snappy buf with
      | some z => (compressedSnappy, z)
      | none =>
        -- a size of zero counts as a failure here
        match (attempt flagCompress compressedZstd pageSize l.zstd buf).filter (· ≠ []) with
        | some z => (compressedZstd, z)
        | none => (0, buf)

/-- The page that the data stands for: the second half of `readpage_kdump_compressed`. -/
def decompressPage (l : Libs) (pageSize flags : Nat) (data : List UInt8) : Option (List UInt8) :=
  let run (codec : Option Codec) :=
    (codec.bind (·.decompress pageSize data)).filter fun b => b.length = pageSize
  if flags &&& compressedZlib ≠ 0 then run (some l.zlib)
  else if flags &&& compressedLzo ≠ 0 then run l.lzoSupported
  else if flags &&& compressedSnappy ≠ 0 then run l.snappy
  else if flags &&& compressedZstd ≠ 0 then run l.zstd
  else some data

/-- `is_zero_page`, which looks at whole words. -/
def isZeroPage (pageSize : Nat) (buf : List UInt8) : Bool :=
  (buf.take (pageSize / 8 * 8)).all (· = 0)

/-! ### Compression is undone -/

/-- Decompressing a successful compression of a page gives the page. -/
def Codec.Lossless (pageSize : Nat) (codec : Codec) : Prop :=
  ∀ buf z, buf.length = pageSize → codec.compress buf = some z →
    codec.decompress pageSize z = some buf

structure Libs.Lossless (pageSize : Nat) (l : Libs) : Prop where
  zlib : l.zlib.Lossless pageSize
  lzo : ∀ x ∈ l.lzo, x.Lossless pageSize
  snappy : ∀ x ∈ l.snappy, x.Lossless pageSize
  zstd : ∀ x ∈ l.zstd, x.Lossless pageSize

theorem Libs.Lossless.lzoSupported {l : Libs} {pageSize : Nat} (h : l.Lossless pageSize) :
    ∀ x ∈ l.lzoSupported, x.Lossless pageSize := by
  unfold Libs.lzoSupported
  intro x hx
  split at hx
  · exact h.lzo x hx
  · cases hx

theorem attempt_some {fc flag pageSize : Nat} {codec : Option Codec} {buf z : List UInt8}
    (h : attempt fc flag pageSize codec buf = some z) :
    ∃ x ∈ codec, x.compress buf = some z ∧ z.length < pageSize := by
  unfold attempt at h
  split at h
  · cases h
  · obtain ⟨h1, h2⟩ := Option.filter_eq_some_iff.1 h
    obtain ⟨x, hx, hz⟩ := Option.bind_eq_some_iff.1 h1
    exact ⟨x, hx, hz, of_decide_eq_true h2⟩

/-- The arms of the chain. -/
def Libs.arms (l : Libs) : List (Nat × Option Codec) :=
  [(compressedZlib, some l.zlib), (compressedLzo, l.lzoSupported), (compressedSnappy, l.snappy),
    (compressedZstd, l.zstd)]

/-- The page as it is, or smaller by one of the arms. -/
theorem compressPage_cases (l : Libs) (fc pageSize : Nat) (buf : List UInt8) :
    compressPage l fc pageSize buf = (0, buf) ∨
      ∃ arm ∈ l.arms, ∃ x ∈ arm.2, ∃ z, x.compress buf = some z ∧ z.length < pageSize ∧
        compressPage l fc pageSize buf = (arm.1, z) := by
  unfold compressPage
  cases h1 : attempt fc compressedZlib pageSize (some l.zlib) buf with
  | some z =>
    obtain ⟨x, hx, hz, hlt⟩ := attempt_some h1
    exact .inr ⟨_, .head _, x, hx, z, hz, hlt, rfl⟩
  | none =>
    cases h2 : attempt fc compressedLzo pageSize l.lzoSupported buf with
    | some z =>
      obtain ⟨x, hx, hz, hlt⟩ := attempt_some h2
      exact .inr ⟨_, .tail _ (.head _), x, hx, z, hz, hlt, rfl⟩
    | none =>
      cases h3 : attempt fc compressedSnappy pageSize l.snappy buf with
      | some z =>
        obtain ⟨x, hx, hz, hlt⟩ := attempt_some h3
        exact .inr ⟨_, .tail _ (.tail _ (.head _)), x, hx, z, hz, hlt, rfl⟩
      | none =>
        cases h4 : (attempt fc compressedZstd pageSize l.zstd buf).filter (· ≠ []) with
        | some z =>
          obtain ⟨x, hx, hz, hlt⟩ := attempt_some (Option.filter_eq_some_iff.1 h4).1
          exact .inr ⟨_, .tail _ (.tail _ (.tail _ (.head _))), x, hx, z, hz, hlt, rfl⟩
        | none => exact .inl rfl

/-- Each flag selects its own library. -/
theorem decompressPage_arm {l : Libs} {arm : Nat × Option Codec} (h : arm ∈ l.arms)
    (pageSize : Nat) (data : List UInt8) : decompressPage l pageSize arm.1 data =
      (arm.2.bind (·.decompress pageSize data)).filter fun b => b.length = pageSize := by
  simp only [Libs.arms, List.mem_cons, List.not_mem_nil, or_false] at h
  unfold decompressPage
  rcases h with rfl | rfl | rfl | rfl <;> dsimp only
  · exact if_pos (by decide)
  · exact (if_neg (by decide)).trans (if_pos (by decide))
  · exact (if_neg (by decide)).trans ((if_neg (by decide)).trans (if_pos (by decide)))
  · exact (if_neg (by decide)).trans ((if_neg (by decide)).trans
      ((if_neg (by decide)).trans (if_pos (by decide))))

theorem Libs.Lossless.arm {l : Libs} {pageSize : Nat} (hl : l.Lossless pageSize)
    {arm : Nat × Option Codec} (h : arm ∈ l.arms) : ∀ x ∈ arm.2, x.Lossless pageSize := by
  simp only [Libs.arms, List.mem_cons, List.not_mem_nil, or_false] at h
  rcases h with rfl | rfl | rfl | rfl
  · intro x hx
    cases hx
    exact hl.zlib
  · exact hl.lzoSupported
  · exact hl.snappy
  · exact hl.zstd

/-- **The page data leads back to the page.** -/
theorem decompressPage_compressPage {l : Libs} {fc pageSize : Nat} {buf : List UInt8}
    (hl : l.Lossless pageSize) (hb : buf.length = pageSize) :
    decompressPage l pageSize (compressPage l fc pageSize buf).1 (compressPage l fc pageSize buf).2 =
      some buf := by
  rcases compressPage_cases l fc pageSize buf with h | ⟨arm, harm, x, hx, z, hz, -, h⟩
  · rw [h]
    simp [decompressPage]
  · rw [h, decompressPage_arm harm, Option.mem_def.1 hx, Option.bind_some,
      hl.arm harm x hx buf z hb hz, Option.filter_some, if_pos (decide_eq_true hb)]

/-- It is never larger than the page. -/
theorem compressPage_fits {l : Libs} {fc pageSize : Nat} {buf : List UInt8}
    (hb : buf.length = pageSize) : (compressPage l fc pageSize buf).2.length ≤ pageSize ∧
      (compressPage l fc pageSize buf).1 < 2 ^ 32 := by
  rcases compressPage_cases l fc pageSize buf with h | ⟨arm, harm, x, -, z, -, hlt, h⟩
  · rw [h]
    exact ⟨Nat.le_of_eq hb, Nat.two_pow_pos 32⟩
  · rw [h]
    refine ⟨Nat.le_of_lt hlt, ?_⟩
    simp only [Libs.arms, List.mem_cons, List.not_mem_nil, or_false] at harm
    rcases harm with rfl | rfl | rfl | rfl <;> dsimp only <;> decide

theorem eq_replicate_of_isZeroPage {pageSize : Nat} {buf : List UInt8} (h8 : 8 ∣ pageSize)
    (hb : buf.length = pageSize) (h : isZeroPage pageSize buf = true) :
    buf = List.replicate pageSize 0 := by
  unfold isZeroPage at h
  rw [Nat.div_mul_cancel h8, List.take_of_length_le (Nat.le_of_eq hb)] at h
  rw [List.eq_replicate_iff]
  refine ⟨hb, ?_⟩
  intro b hm
  exact of_decide_eq_true (List.all_eq_true.1 h b hm)

end Kdump
