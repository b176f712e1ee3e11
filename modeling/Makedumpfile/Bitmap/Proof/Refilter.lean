import Makedumpfile.Bitmap.Refilter
import Makedumpfile.Kdump.Proof.Written

/-!
# Filtering again: the copy starts at the input's own bitmap unless max_mapnr was lowered

Both places of the input's 2nd bitmap start from the end of its headers. `bitmap_memory` adds half of
the header's `bitmap_blocks`, the copy half of the length of the new bitmap (`copyBase`). If `mem_map`
ends so early that the new bitmap has fewer pages, **the copy starts inside the input's 1st bitmap**
(`refilter_copies_iff`).
-/

namespace Refilter

open Lib ByteFile Kdump

variable {d : Dump} {pageSize m : Nat}

theorem adjustMaxMapnr_le (xen : Bool) (maps : List Bitmap.MemMapData) (n : Nat) :
    adjustMaxMapnr xen maps n ≤ n := by
  unfold adjustMaxMapnr
  dsimp only
  split
  · exact Nat.le_refl n
  · exact Nat.min_le_left _ _

/-! ## The reads through `bitmap_memory` -/

/-- The block in the buffer is the file's, as far as the file goes. -/
def BufOk (d : Dump) (b : BitmapBuf) : Prop :=
  b.noBlock = -1 ∨ ∃ k : Nat, k < 2 ^ 31 ∧ b.noBlock = k ∧ ∀ j < 32768,
    8 * d.offsetBitmap2 + 32768 * k + j < 8 * d.file.length →
      isOn b.buf j = isOn d.file (8 * d.offsetBitmap2 + 32768 * k + j)

theorem isOn_append_left {a b : List UInt8} {i : Nat} (h : i < 8 * a.length) :
    isOn (a ++ b) i = isOn a i := by
  unfold isOn
  rw [List.getD_eq_getElem?_getD, List.getD_eq_getElem?_getD, List.getElem?_append_left (by omega)]

theorem loadBlock_ok {b : BitmapBuf} (hb : BufOk d b) {pfn : Nat} (hp : pfn < 2 ^ 46) :
    (loadBlock d pfn b).noBlock = (pfn / 32768 : Nat) ∧ BufOk d (loadBlock d pfn b) := by
  unfold loadBlock
  split
  · have hno : i32 ((pfn / 32768 : Nat) : Int) = (pfn / 32768 : Nat) :=
      i32_of_fits (by omega) (by omega)
    refine ⟨hno, .inr ⟨pfn / 32768, by omega, hno, fun j hj hin => ?_⟩⟩
    dsimp only
    have hlen : j < 8 * (pread d.file (d.offsetBitmap2 + 4096 * (pfn / 32768)) 4096).length := by
      rw [length_pread]
      omega
    show isOn (pread d.file (d.offsetBitmap2 + 4096 * (pfn / 32768)) 4096 ++ _) j = _
    rw [isOn_append_left hlen, isOn_pread _ _ (by omega)]
    congr 1
    omega
  · rename_i h
    have hno : b.noBlock = (pfn / 32768 : Nat) := by
      have heq : b.noBlock % 2 ^ 64 = (pfn / 32768 : Nat) := by
        by_contra hne
        exact h (.inr hne)
      rcases hb with h1 | ⟨k, hk, h1, -⟩
      · rw [h1] at heq
        omega
      · rw [h1] at heq ⊢
        omega
    exact ⟨hno, hb⟩

theorem isDumpableFile_ok {b : BitmapBuf} (hb : BufOk d b) (pfn : Nat) (hp : pfn < 2 ^ 46) :
    BufOk d (isDumpableFile d pfn b).2 ∧ (8 * d.offsetBitmap2 + pfn < 8 * d.file.length →
      (isDumpableFile d pfn b).1 = isOn d.file (8 * d.offsetBitmap2 + pfn)) := by
  obtain ⟨hno, hok⟩ := loadBlock_ok hb hp
  refine ⟨hok, fun hin => ?_⟩
  show isOn (loadBlock d pfn b).buf (pfn % 32768) = _
  rcases hok with h1 | ⟨k, -, h1, hbits⟩
  · rw [hno] at h1
    omega
  · have hk : k = pfn / 32768 := by omega
    subst hk
    rw [hbits _ (by omega) (by omega)]
    congr 1
    omega

theorem afterReads_ok : ∀ (pfns : List Nat) {b : BitmapBuf}, BufOk d b →
    (∀ pfn ∈ pfns, pfn < 2 ^ 46) →
    BufOk d (pfns.foldl (fun b pfn => (isDumpableFile d pfn b).2) b)
  | [], _, hb, _ => hb
  | pfn :: pfns, _, hb, h => by
    have hstep := (isDumpableFile_ok hb pfn (h pfn List.mem_cons_self)).1
    exact afterReads_ok pfns hstep fun q hq => h q (List.mem_cons_of_mem _ hq)

/-! ## The copy -/

theorem half_lenBitmap (pageSize m : Nat) :
    lenBitmap pageSize m / 2 = divideup (divideup m 8) pageSize * pageSize := by
  unfold lenBitmap
  omega

theorem rounds_eq (hp : 0 < pageSize) (m : Nat) :
    divideup (lenBitmap pageSize m / 2) pageSize = divideup (divideup m 8) pageSize := by
  rw [half_lenBitmap, divideup_mul hp]

/-- A round inside the file. -/
theorem copyRound_ok (base : Nat) (b : Bitmap.FileBitmap) {k : Nat}
    (h : base + k * pageSize + pageSize ≤ d.file.length) :
    copyRound d pageSize base b k =
      some { b with file := pwrite b.file (b.offset + k * pageSize)
                      (pread d.file (base + k * pageSize) pageSize) } := by
  have hread : readAt d.file (base + k * pageSize) pageSize =
      some (pread d.file (base + k * pageSize) pageSize) := by
    unfold readAt
    rw [if_pos (by rw [length_pread]; omega)]
  have hcast : ((base : Int) + (k * pageSize : Nat)).toNat = base + k * pageSize := by omega
  unfold copyRound
  rw [hcast, hread, guard, if_pos (by omega)]
  rfl

/-- The rounds so far: the bits of the pages read. -/
theorem copyRounds_ok (base : Nat) (b : Bitmap.FileBitmap) : ∀ {n : Nat},
    base + n * pageSize ≤ d.file.length →
    ∃ b', (List.range n).foldlM (copyRound d pageSize base) b = some b' ∧ b'.offset = b.offset ∧
      ∀ i < 8 * (n * pageSize), isOn b'.file (8 * b.offset + i) = isOn d.file (8 * base + i)
  | 0, _ => ⟨b, rfl, rfl, fun i hi => by omega⟩
  | n + 1, h => by
    have hmul : (n + 1) * pageSize = n * pageSize + pageSize := Nat.succ_mul n pageSize
    rw [hmul] at h ⊢
    obtain ⟨b', hb', hoff, hbits⟩ := copyRounds_ok base b (n := n) (by omega)
    have hround := @copyRound_ok d pageSize base b' n (by omega)
    refine ⟨{ b' with file := pwrite b'.file (b'.offset + n * pageSize)
                        (pread d.file (base + n * pageSize) pageSize) }, ?_, hoff, ?_⟩
    · rw [List.range_succ, List.foldlM_append, hb']
      simp only [Option.bind_eq_bind, Option.bind_some, List.foldlM_cons, List.foldlM_nil, hround]
      rfl
    · intro i hi
      have hlen : (pread d.file (base + n * pageSize) pageSize).length = pageSize := by
        rw [length_pread]
        omega
      rw [isOn_pwrite, hlen, hoff]
      split
      · rw [isOn_pread _ _ (by omega)]
        congr 1
        omega
      · exact hbits i (by omega)

/-- The copy, when its place is inside the file. -/
theorem copyBitmapFile_ok (hp : 0 < pageSize) {base : Nat} (hbase : copyBase d pageSize m = base)
    (h : base + divideup (divideup m 8) pageSize * pageSize ≤ d.file.length)
    (b : Bitmap.FileBitmap) :
    ∃ b', copyBitmapFile d pageSize m b = some b' ∧ b'.offset = b.offset ∧
      ∀ i < m, isOn b'.file (8 * b.offset + i) = isOn d.file (8 * base + i) := by
  have h1 := le_divideup_mul (divideup m 8) hp
  have h2 := le_divideup_mul m (show 0 < 8 by decide)
  obtain ⟨b', hb', hoff, hbits⟩ := copyRounds_ok base b h
  unfold copyBitmapFile
  rw [rounds_eq hp, hbase]
  exact ⟨b', hb', hoff, fun i hi => hbits i (by omega)⟩

/-- `lseek` refuses a negative offset. -/
theorem copyBitmapFile_negative (hp : 0 < pageSize) (hm : 0 < m) (h : copyBase d pageSize m < 0)
    (b : Bitmap.FileBitmap) : copyBitmapFile d pageSize m b = none := by
  have h1 := le_divideup_mul (divideup m 8) hp
  have h2 := le_divideup_mul m (show 0 < 8 by decide)
  unfold copyBitmapFile
  rw [rounds_eq hp]
  obtain ⟨n, hn⟩ : ∃ n, divideup (divideup m 8) pageSize = n + 1 := by
    refine Nat.exists_eq_succ_of_ne_zero fun h0 => ?_
    rw [h0] at h1
    omega
  have hround : copyRound d pageSize (copyBase d pageSize m) b 0 = none := by
    unfold copyRound
    rw [guard, if_neg (by omega)]
    rfl
  rw [hn, List.range_succ_eq_map, List.foldlM_cons, hround]
  rfl

/-! ## The two places -/

/-- The input: its header is one that `check_kdump_compressed` and `initialize_bitmap_memory` take, its
bitmaps have a bit for every page frame, and the page size is that of a machine. -/
structure SourceOk (d : Dump) (pageSize : Nat) : Prop where
  blockSize_pos : 0 < d.blockSize
  blockSize_lt : d.blockSize < 2 ^ 31
  subHdrSize_nonneg : 0 ≤ d.subHdrSize
  subHdrSize_lt : d.subHdrSize < 2 ^ 31 - 1
  pageSize_pos : 0 < pageSize
  pageSize_lt : pageSize < 2 ^ 32
  sections : divideup (getMaxMapnr d) bitmapSectLen < 2 ^ 31
  covered : getMaxMapnr d ≤ 8 * (d.blockSize * d.bitmapBlocks / 2)

/-- The end of the headers. -/
def headerEnd (d : Dump) : Nat := (1 + d.subHdrSize).toNat * d.blockSize

/-- The end of both bitmaps. -/
def bitmapEnd (d : Dump) : Nat := headerEnd d + d.blockSize * d.bitmapBlocks

theorem headerEnd_cast (h : SourceOk d pageSize) :
    ((1 + d.subHdrSize) * d.blockSize : Int) = headerEnd d := by
  have := h.subHdrSize_nonneg
  unfold headerEnd
  rw [Nat.cast_mul, Int.toNat_of_nonneg (by omega)]

theorem offsetBitmap2_eq (h : SourceOk d pageSize) :
    d.offsetBitmap2 = headerEnd d + d.blockSize * d.bitmapBlocks / 2 := by
  have h1 := h.subHdrSize_lt
  have h2 := h.blockSize_lt
  have hlt : (1 + d.subHdrSize).toNat * d.blockSize < 2 ^ 31 * 2 ^ 31 :=
    Nat.mul_lt_mul'' (by omega) h2
  have hcast : ((1 + d.subHdrSize).toNat : Int) = 1 + d.subHdrSize := by
    have := h.subHdrSize_nonneg
    omega
  unfold Dump.offsetBitmap2 headerEnd
  rw [← hcast, blockOffset_eq (by omega)]
  rfl

/-- **Both computations give one place** if the headers end below 2 GiB and the new bitmap is as long
as the input's. -/
theorem copyBase_eq_iff (h : SourceOk d pageSize) (hm : m ≤ getMaxMapnr d) :
    copyBase d pageSize m = d.offsetBitmap2 ↔
      headerEnd d < 2 ^ 31 ∧
        divideup (divideup m 8) pageSize * pageSize = d.blockSize * d.bitmapBlocks / 2 := by
  have hc := h.covered
  have h1 := divideup_mul_lt (divideup m 8) h.pageSize_pos
  have h2 := divideup_mul_lt m (show 0 < 8 by decide)
  have h3 := h.pageSize_lt
  rw [offsetBitmap2_eq h]
  unfold copyBase
  rw [headerEnd_cast h, half_lenBitmap]
  generalize headerEnd d = e at *
  generalize d.blockSize * d.bitmapBlocks / 2 = half at *
  generalize divideup (divideup m 8) pageSize * pageSize = len at *
  rw [i32_eq_int32, int32]
  constructor
  · intro heq
    omega
  · intro ⟨hlt, heq⟩
    omega

/-! ## Whole copies -/

/-- Whatever the input's bitmaps and the file of the new bitmap hold, the copy succeeds, and every bit
of the new bitmap is the one that `bitmap_memory` gives, after any reads. -/
def CopiesOwnBitmap (d : Dump) (pageSize m : Nat) : Prop :=
  ∀ (file new : ByteFile) (reads : List Nat), bitmapEnd d ≤ file.length →
    (∀ pfn ∈ reads, pfn < getMaxMapnr d) →
    ∃ b, copyBitmapFile { d with file } pageSize m (bitmap2 pageSize m new) = some b ∧
      ∀ pfn < m, isOn b.file (8 * b.offset + pfn) =
        (isDumpableFile { d with file } pfn (afterReads { d with file } reads)).1

theorem maxMapnr_lt (h : SourceOk d pageSize) : getMaxMapnr d < 2 ^ 46 := by
  have := h.sections
  unfold divideup bitmapSectLen at this
  omega

theorem afterReads_bufOk (h : SourceOk d pageSize) (file : ByteFile) (reads : List Nat)
    (hr : ∀ pfn ∈ reads, pfn < getMaxMapnr d) :
    BufOk { d with file } (afterReads { d with file } reads) := by
  have := maxMapnr_lt h
  refine afterReads_ok reads (.inl rfl) fun pfn hpfn => ?_
  have := hr pfn hpfn
  omega

theorem copies_of_place (h : SourceOk d pageSize) (hm : m ≤ getMaxMapnr d)
    (hplace : copyBase d pageSize m = d.offsetBitmap2) : CopiesOwnBitmap d pageSize m := by
  intro file new reads hlen hreads
  have hmax := maxMapnr_lt h
  have hcov := h.covered
  have hoff := offsetBitmap2_eq h
  obtain ⟨-, hhalf⟩ := (copyBase_eq_iff h hm).1 hplace
  unfold bitmapEnd at hlen
  obtain ⟨b, hb, hbo, hbits⟩ := @copyBitmapFile_ok { d with file } pageSize m h.pageSize_pos
    d.offsetBitmap2 hplace (by dsimp only; omega) (bitmap2 pageSize m new)
  refine ⟨b, hb, fun pfn hpfn => ?_⟩
  have hread := (isDumpableFile_ok (afterReads_bufOk h file reads hreads) pfn (by omega)).2
    (by show 8 * d.offsetBitmap2 + pfn < 8 * file.length; omega)
  rw [hread, hbo]
  exact hbits pfn hpfn

/-- The file whose only bit on is bit 0 of the byte at `off`. -/
theorem isOn_single (off len i : Nat) :
    isOn (List.replicate off 0 ++ [1] ++ List.replicate len 0) i = decide (i = 8 * off) := by
  have hbyte : byteAt (List.replicate off 0 ++ [1] ++ List.replicate len 0) (i / 8) =
      if i / 8 = off then 1 else 0 := by
    rw [byteAt_append, byteAt_append, List.length_append, List.length_replicate]
    simp only [byteAt, List.length_singleton, List.getD_eq_getElem?_getD]
    by_cases heq : i / 8 = off
    · rw [if_pos (by omega), if_neg (by omega), if_pos heq, heq, Nat.sub_self]
      rfl
    · rw [if_neg heq]
      split
      · rw [if_pos (by omega), List.getElem?_replicate, if_pos (by omega)]
        rfl
      · rw [List.getElem?_replicate]
        split <;> rfl
  rw [isOn_eq_byteAt, hbyte]
  by_cases heq : i / 8 = off
  · rw [if_pos heq, show UInt8.toNat 1 = 1 from rfl, Bool.eq_iff_iff,
      Nat.testBit_one_eq_true_iff_self_eq_zero, decide_eq_true_iff]
    omega
  · rw [if_neg heq, show UInt8.toNat 0 = 0 from rfl, Nat.zero_testBit]
    exact (decide_eq_false (by omega)).symm

theorem place_of_copies (h : SourceOk d pageSize) (hpos : 0 < m)
    (hc : CopiesOwnBitmap d pageSize m) : copyBase d pageSize m = d.offsetBitmap2 := by
  by_contra hne
  have hmax := maxMapnr_lt h
  -- the only bit on is the input's bit of page frame 0
  let len := bitmapEnd d + (copyBase d pageSize m).toNat +
    divideup (divideup m 8) pageSize * pageSize
  let file : ByteFile := List.replicate d.offsetBitmap2 0 ++ [1] ++ List.replicate len 0
  have hlen : file.length = d.offsetBitmap2 + 1 + len := by
    simp [file]
    omega
  obtain ⟨b, hb, hbits⟩ := hc file [] [] (by rw [hlen]; omega) (fun _ h => absurd h (by simp))
  have hread := (isDumpableFile_ok (afterReads_bufOk h file [] (by simp)) 0 (by omega)).2
    (by show 8 * d.offsetBitmap2 + 0 < 8 * file.length; omega)
  have hon : isOn file (8 * d.offsetBitmap2 + 0) = true := by
    rw [isOn_single]
    simp
  rcases Int.lt_or_le (copyBase d pageSize m) 0 with hneg | hnn
  · rw [@copyBitmapFile_negative { d with file } pageSize m h.pageSize_pos hpos hneg] at hb
    cases hb
  · obtain ⟨base, hbase⟩ := Int.eq_ofNat_of_zero_le hnn
    obtain ⟨b', hb', hbo, hbits'⟩ := @copyBitmapFile_ok { d with file } pageSize m h.pageSize_pos
      base hbase (by dsimp only; omega) (bitmap2 pageSize m [])
    cases hb.symm.trans hb'
    have h0 := hbits 0 hpos
    rw [hread, hbo, hbits' 0 hpos] at h0
    rw [show isOn ({ d with file } : Dump).file
      (8 * ({ d with file } : Dump).offsetBitmap2 + 0) = true from hon] at h0
    rw [show isOn ({ d with file } : Dump).file (8 * base + 0) = decide (8 * base + 0 = 8 *
      d.offsetBitmap2) from isOn_single _ _ _] at h0
    have := of_decide_eq_true h0
    omega

/-- **Refiltering starts from the input's own bitmap** exactly if there is no page frame, or the headers
end below 2 GiB and the new bitmap is as long as the input's. -/
theorem refilter_copies_iff (d : Dump) (pageSize : Nat) (xen : Bool)
    (maps : List Bitmap.MemMapData) (h : SourceOk d pageSize) :
    CopiesOwnBitmap d pageSize (adjustMaxMapnr xen maps (getMaxMapnr d)) ↔
      adjustMaxMapnr xen maps (getMaxMapnr d) = 0 ∨
        (headerEnd d < 2 ^ 31 ∧
          divideup (divideup (adjustMaxMapnr xen maps (getMaxMapnr d)) 8) pageSize * pageSize =
            d.blockSize * d.bitmapBlocks / 2) := by
  have hm := adjustMaxMapnr_le xen maps (getMaxMapnr d)
  generalize adjustMaxMapnr xen maps (getMaxMapnr d) = m at hm ⊢
  rw [← copyBase_eq_iff h hm]
  constructor
  · intro hc
    rcases Nat.eq_zero_or_pos m with h0 | hpos
    · exact .inl h0
    · exact .inr (place_of_copies h hpos hc)
  · intro hor
    rcases hor with h0 | hplace
    · subst h0
      intro file new reads _ _
      refine ⟨bitmap2 pageSize 0 new, ?_, fun pfn hpfn => absurd hpfn (Nat.not_lt_zero pfn)⟩
      have h0 : divideup (divideup 0 8) pageSize = 0 := by
        have := h.pageSize_pos
        unfold divideup
        exact Nat.div_eq_of_lt (by omega)
      unfold copyBitmapFile
      rw [rounds_eq h.pageSize_pos, h0]
      rfl
    · exact copies_of_place h hm hplace

/-- A dump of 256 MiB in blocks of 4 KiB: its bitmaps have two blocks each. -/
def smallDump : Dump where
  be := false
  libs := { zlib := { compress := fun _ => none, decompress := fun _ _ => none } }
  file := []
  headerVersion := 6
  blockSize := 4096
  subHdrSize := 1
  bitmapBlocks := 4
  maxMapnr := 65536
  maxMapnr64 := 65536

theorem smallDump_ok : SourceOk smallDump 4096 :=
  ⟨by decide, by decide, by decide, by decide, by decide, by decide, by decide, by decide⟩

/-- Memory maps up to 160 MiB: the bitmaps still have two blocks. -/
theorem refilter_copies_most :
    CopiesOwnBitmap smallDump 4096
      (adjustMaxMapnr false [⟨0x1000, 0, 40960⟩] (getMaxMapnr smallDump)) :=
  (refilter_copies_iff smallDump 4096 false _ smallDump_ok).2 (.inr ⟨by decide, by decide⟩)

/-- Memory maps up to 128 MiB: the new bitmap has one block, and the copy starts at the second block of
the input's 1st bitmap. -/
theorem refilter_copies_first_bitmap :
    ¬ CopiesOwnBitmap smallDump 4096
      (adjustMaxMapnr false [⟨0x1000, 0, 32768⟩] (getMaxMapnr smallDump)) := by
  intro h
  have hplace := place_of_copies smallDump_ok (by decide) h
  obtain ⟨-, hlen⟩ := (copyBase_eq_iff smallDump_ok (by decide)).1 hplace
  revert hlen
  decide

end Refilter
