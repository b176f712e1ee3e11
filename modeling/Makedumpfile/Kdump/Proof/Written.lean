import Makedumpfile.Kdump.Proof.Stream

/-!
# The file that is written

When the quantities that the source keeps in `int`s fit (`Fits`) and no write fails, the writers leave
a file that holds the headers, the two bitmaps, the descriptors and the page data, each complete and
in a place of its own (`Written`, `writeoutDumpfile_ok`). The same holds for each part of a split
dump, which has the pages of its range only.
-/

namespace Kdump

open Lib Output ByteFile

variable (i : Info)

/-- What must fit an `int` for the places in the file: the size of the notes and the number of the
reader's sections. -/
structure Places : Prop where
  notes : sizeofKdumpSubHeader + i.note.length + i.pageSize ≤ 2 ^ 31
  sections : divideup i.maxMapnr bitmapSectLen < 2 ^ 31

/-- And for the bitmaps: the bytes of the first (and largest) cycle's bits. -/
structure Fits : Prop extends Places i where
  cycle : divideup (min i.pfnCyclic i.maxMapnr) 8 < 2 ^ 31

/-! ## Places -/

theorem Info.le_pageSize : 4096 ≤ i.pageSize :=
  Nat.pow_le_pow_right (by decide) i.pageShift_ge (n := 2)

theorem Info.pageSize_le : i.pageSize ≤ 2 ^ 22 := Nat.pow_le_pow_right (by decide) i.pageShift_le

theorem Info.dvd_pageSize : 8 ∣ i.pageSize :=
  Nat.dvd_trans (by decide) (Nat.pow_dvd_pow 2 i.pageShift_ge)

theorem Info.pfnCyclic_pos : 0 < i.pfnCyclic := Nat.mul_pos i.bufsizeCyclic_pos (by decide)

variable {i}

/-- The size of the sub header and the notes in blocks. -/
def Info.subBlocks (i : Info) : Nat := divideup (sizeofKdumpSubHeader + i.note.length) i.pageSize

theorem subHdrSize_eq (h : Places i) : i.subHdrSize = (i.subBlocks : Nat) := by
  have h1 := h.notes
  have h2 := i.pageSize_pos
  unfold Info.subHdrSize Info.subBlocks divideup
  have e : ((sizeofKdumpSubHeader : Int) + i.note.length) + (i.pageSize - 1) =
      (sizeofKdumpSubHeader + i.note.length + (i.pageSize - 1) : Nat) := by omega
  have e1 : i32 ((sizeofKdumpSubHeader : Int) + i.note.length) =
      sizeofKdumpSubHeader + i.note.length := i32_of_fits (by omega) (by omega)
  rw [e1, e, i32_of_fits (by omega) (by omega)]
  rfl

/-- The number of blocks of one bitmap. -/
def Info.blocks (i : Info) : Nat := divideup (divideup i.maxMapnr 8) i.pageSize

theorem lenBitmap_half (i : Info) : i.lenBitmap / 2 = i.blocks * i.pageSize := by
  unfold Info.lenBitmap Info.blocks
  omega

theorem lenBitmap_eq (i : Info) : i.lenBitmap = i.lenBitmap / 2 + i.lenBitmap / 2 := by
  unfold Info.lenBitmap
  omega

theorem divideup_le_half (i : Info) : divideup i.maxMapnr 8 ≤ i.lenBitmap / 2 := by
  rw [lenBitmap_half]
  exact le_divideup_mul _ i.pageSize_pos

theorem blocks_lt (h : Places i) : i.blocks * i.pageSize < 2 ^ 41 ∧ i.blocks < 2 ^ 29 := by
  have h1 := h.sections
  have h2 := le_divideup_mul i.maxMapnr (show 0 < bitmapSectLen by decide)
  have h3 := divideup_mul_lt i.maxMapnr (show 0 < 8 by decide)
  have h4 : i.blocks * i.pageSize < _ := divideup_mul_lt (divideup i.maxMapnr 8) i.pageSize_pos
  have h5 := i.pageSize_le
  have h6 := Nat.mul_le_mul_left i.blocks i.le_pageSize
  have e : bitmapSectLen = 4096 := rfl
  rw [e] at h1 h2
  omega

theorem bitmapBlocks_eq (h : Places i) : i.dumpHeader.bitmapBlocks = 2 * i.blocks := by
  have hb := (blocks_lt h).2
  show divideup i.lenBitmap i.pageSize % 2 ^ 32 = _
  have e : i.lenBitmap = 2 * i.blocks * i.pageSize := by
    unfold Info.lenBitmap Info.blocks
    rw [Nat.mul_comm _ 2, Nat.mul_assoc]
  rw [e, divideup_mul i.pageSize_pos, Nat.mod_eq_of_lt (by omega)]

theorem blockOffset_eq {n size : Nat} (h : n * size < 2 ^ 64) :
    blockOffset (n : Nat) size = n * size := by
  unfold blockOffset
  rw [← Int.natCast_mul, Int.emod_eq_of_lt (by omega) (by omega), Int.toNat_natCast]

theorem subBlocks_bounds (h : Places i) : i.offsetNote + i.note.length ≤ (1 + i.subBlocks) * i.pageSize ∧
    (1 + i.subBlocks) * i.pageSize ≤ 2 ^ 32 := by
  have h1 := h.notes
  have h2 := le_divideup_mul (sizeofKdumpSubHeader + i.note.length) i.pageSize_pos
  have h3 := divideup_mul_lt (sizeofKdumpSubHeader + i.note.length) i.pageSize_pos
  have h5 := i.pageSize_le
  unfold Info.offsetNote Info.subBlocks
  rw [Nat.add_mul]
  omega

@[simp] theorem dumpHeader_subHdrSize (i : Info) : i.dumpHeader.subHdrSize = i.subHdrSize := by
  dsimp only [Info.dumpHeader]

@[simp] theorem dumpHeader_blockSize (i : Info) : i.dumpHeader.blockSize = i.pageSize := rfl

theorem offsetBitmap_eq (h : Places i) :
    i.dumpHeader.offsetBitmap = (1 + i.subBlocks) * i.pageSize := by
  have hb := (subBlocks_bounds h).2
  unfold DiskDumpHeader.offsetBitmap
  rw [dumpHeader_subHdrSize, dumpHeader_blockSize, subHdrSize_eq h, show (1 : Int) + (i.subBlocks : Nat) = (1 + i.subBlocks : Nat) by omega,
    blockOffset_eq (by omega)]

theorem offsetDesc_eq (h : Places i) : i.dumpHeader.offsetDesc = i.dumpHeader.offsetBitmap + i.lenBitmap := by
  have hb := (subBlocks_bounds h).2
  have hl := (blocks_lt h).1
  have hlen : i.lenBitmap = 2 * i.blocks * i.pageSize := by
    unfold Info.lenBitmap Info.blocks
    rw [Nat.mul_comm _ 2, Nat.mul_assoc]
  have hsum : (1 + i.subBlocks + 2 * i.blocks) * i.pageSize =
      (1 + i.subBlocks) * i.pageSize + i.lenBitmap := by rw [hlen, Nat.add_mul]
  have hlt : (1 + i.subBlocks) * i.pageSize + i.lenBitmap < 2 ^ 64 := by
    rw [hlen, Nat.mul_assoc]
    omega
  rw [offsetBitmap_eq h]
  unfold DiskDumpHeader.offsetDesc
  rw [dumpHeader_subHdrSize, dumpHeader_blockSize, subHdrSize_eq h, bitmapBlocks_eq h, show (1 : Int) + (i.subBlocks : Nat) +
    (2 * i.blocks : Nat) = (1 + i.subBlocks + 2 * i.blocks : Nat) by omega,
    blockOffset_eq (by omega), hsum]

/-! ## The headers -/

/-- What stands below the bitmaps. -/
structure Headers (i : Info) (f : ByteFile) : Prop where
  header : Holds f 0 (i.dumpHeader.encode i.opts.bigendian)
  subHeader : Holds f i.pageSize (i.subHeader.encode i.opts.bigendian)
  note : Holds f i.offsetNote i.note

theorem Headers.keeps {f g : ByteFile} (h : Headers i f) (hf : Places i)
    (hk : Keeps i.dumpHeader.offsetBitmap f g) : Headers i g := by
  have h1 := subBlocks_bounds hf
  have h2 := i.le_pageSize
  rw [← offsetBitmap_eq hf] at h1
  have e1 : sizeofDiskDumpHeader = 464 := rfl
  unfold Info.offsetNote at h1
  refine ⟨h.header.keeps hk ?_, h.subHeader.keeps hk ?_, h.note.keeps hk ?_⟩
  · rw [DiskDumpHeader.length_encode]
    omega
  · rw [KdumpSubHeader.length_encode]
    omega
  · unfold Info.offsetNote
    omega

theorem writeKdumpHeader_ok {o : Out} (hn : NoFail i.opts o) :
    ∃ o', writeKdumpHeader i o = (true, o') ∧ Headers i o'.file ∧ NoFail i.opts o' := by
  have h2 := i.le_pageSize
  have e1 : sizeofDiskDumpHeader = 464 := rfl
  have l1 := DiskDumpHeader.length_encode i.opts.bigendian i.dumpHeader
  have l2 := KdumpSubHeader.length_encode i.opts.bigendian i.subHeader
  obtain ⟨o1, w1, f1, -, n1⟩ := writeBuffer_file hn 0 (i.dumpHeader.encode i.opts.bigendian)
  have hold1 : Holds o1.file 0 (i.dumpHeader.encode i.opts.bigendian) := by
    rw [f1]
    exact pread_pwrite_self _ _ _
  unfold writeKdumpHeader writeAll
  rw [List.cons_append, tryEach, w1]
  dsimp only
  by_cases hnote : i.note = []
  · obtain ⟨o2, w2, f2, -, n2⟩ :=
      writeBuffer_file n1 i.pageSize (i.subHeader.encode i.opts.bigendian)
    rw [if_pos hnote, List.nil_append, tryEach, w2]
    refine ⟨o2, rfl, ⟨?_, ?_, by rw [hnote]; exact holds_nil _ _⟩, n2⟩
    · rw [f2]
      exact hold1.pwrite_of_disjoint (.inl (by omega))
    · rw [f2]
      exact pread_pwrite_self _ _ _
  · obtain ⟨o2, w2, f2, -, n2⟩ := writeBuffer_file n1 i.offsetNote i.note
    obtain ⟨o3, w3, f3, -, n3⟩ :=
      writeBuffer_file n2 i.pageSize (i.subHeader.encode i.opts.bigendian)
    rw [if_neg hnote, List.cons_append, tryEach, w2, List.nil_append]
    dsimp only
    rw [tryEach, w3]
    have hoff : i.offsetNote = i.pageSize + sizeofKdumpSubHeader := rfl
    refine ⟨o3, rfl, ⟨?_, ?_, ?_⟩, n3⟩
    · rw [f3, f2]
      exact (hold1.pwrite_of_disjoint (.inl (by omega))).pwrite_of_disjoint (.inl (by omega))
    · rw [f3]
      exact pread_pwrite_self _ _ _
    · rw [f3, f2]
      exact Holds.pwrite_of_disjoint (pread_pwrite_self _ _ _) (.inr (by omega))

/-- The headers and the notes are all that is written. -/
theorem byteAt_writeKdumpHeader {o o' : Out} (hn : NoFail i.opts o)
    (h : writeKdumpHeader i o = (true, o')) {k : Nat} (hk : i.offsetNote + i.note.length ≤ k) :
    byteAt o'.file k = byteAt o.file k := by
  have h2 := i.le_pageSize
  have e1 : sizeofDiskDumpHeader = 464 := rfl
  have l1 := DiskDumpHeader.length_encode i.opts.bigendian i.dumpHeader
  have l2 := KdumpSubHeader.length_encode i.opts.bigendian i.subHeader
  have hoff : i.offsetNote = i.pageSize + sizeofKdumpSubHeader := rfl
  have hput : ∀ l : List (Nat × List UInt8), (∀ w ∈ l, w.1 + w.2.length ≤ k) → ∀ o o' : Out,
      NoFail i.opts o → writeAll i.opts l o = (true, o') → byteAt o'.file k = byteAt o.file k := by
    intro l
    induction l with
    | nil =>
      intro _ o o' _ h
      cases h
      rfl
    | cons w l ih =>
      intro hl o o' hn h
      obtain ⟨o1, w1, f1, -, n1⟩ := writeBuffer_file hn w.1 w.2
      unfold writeAll at h
      rw [tryEach, w1] at h
      rw [ih (fun x hx => hl x (List.mem_cons_of_mem _ hx)) o1 o' n1 h, f1]
      exact byteAt_pwrite_of_disjoint (.inr (hl w List.mem_cons_self))
  refine hput _ ?_ o o' hn h
  intro w hw
  rw [List.cons_append, List.mem_cons, List.mem_append] at hw
  rcases hw with rfl | hw | hw
  · dsimp only
    omega
  · split at hw
    · cases hw
    · rw [List.mem_singleton.1 hw]
      exact hk
  · rw [List.mem_singleton.1 hw]
    dsimp only
    omega

/-! ## The bits of a cycle -/

/-- The cycle that starts at `a`. -/
def Info.cycleAt (i : Info) (a : Nat) : PfnCycle := ⟨a, min (a + i.pfnCyclic) i.maxMapnr⟩

theorem increment_cycleAt (hf : Fits i) (a : Nat) :
    increment (i.cycleAt a) = (divideup ((i.cycleAt a).endPfn - a) 8 : Nat) := by
  have h := hf.cycle
  unfold increment divideup Info.cycleAt at *
  dsimp only
  exact i32_of_fits (by omega) (by omega)

theorem writeBits_ok {o : Out} (hn : NoFail i.opts o) (hf : Fits i) (bit : Nat → Bool)
    (a offset : Nat) : ∃ o', writeBits i bit (i.cycleAt a) offset o = (true, o') ∧
      o'.file = o.file.pwrite offset (bitmapBytes bit a ((i.cycleAt a).endPfn - a)) ∧
      NoFail i.opts o' := by
  obtain ⟨o', h, hfile, -, hn'⟩ :=
    writeBuffer_file hn offset (bitmapBytes bit a ((i.cycleAt a).endPfn - a))
  have hinc := increment_cycleAt hf a
  refine ⟨o', ?_, hfile, hn'⟩
  unfold writeBits
  rw [hinc, if_neg (by omega), Int.toNat_natCast, List.take_of_length_le]
  · exact h
  · exact Nat.le_of_eq (length_bitmapBytes _ _ _)

/-- A cycle that starts at a whole byte extends the bitmap. -/
theorem bitmapBytes_cycleAt (bit : Nat → Bool) {a : Nat} (ha : a ≤ (i.cycleAt a).endPfn)
    (h8 : 8 ∣ a) : bitmapBytes bit 0 (i.cycleAt a).endPfn =
      bitmapBytes bit 0 a ++ bitmapBytes bit a ((i.cycleAt a).endPfn - a) := by
  have h := bitmapBytes_append bit 0 ((i.cycleAt a).endPfn - a) h8
  rwa [Nat.zero_add, Nat.add_sub_cancel' ha] at h

theorem divideup_mono {x y z : Nat} (h : x ≤ y) : divideup x z ≤ divideup y z :=
  Nat.div_le_div_right (by omega)

theorem cycleAt_facts {a : Nat} (h : a < i.maxMapnr) (hd : i.pfnCyclic ∣ a) :
    a ≤ (i.cycleAt a).endPfn ∧ (i.cycleAt a).endPfn ≤ i.maxMapnr ∧ 8 ∣ a ∧
      i.bufsizeCyclic * (a / i.pfnCyclic) = a / 8 ∧ divideup a 8 = a / 8 := by
  have h8 : 8 ∣ a := Nat.dvd_trans (Nat.dvd_mul_left _ _) hd
  refine ⟨by unfold Info.cycleAt; dsimp only; omega, Nat.min_le_right _ _, h8, ?_,
    by unfold divideup; omega⟩
  obtain ⟨k, rfl⟩ := hd
  rw [Nat.mul_div_cancel_left _ i.pfnCyclic_pos]
  unfold Info.pfnCyclic
  rw [show i.bufsizeCyclic * 8 * k = i.bufsizeCyclic * k * 8 by ring, Nat.mul_div_cancel _ (by decide)]

/-! ## The pages of the file -/

/-- The page belongs to this file: every page, or those of its range. -/
def ownPage (i : Info) (pfn : Nat) : Bool :=
  i.bitmap2 pfn && (!i.flagSplit || (decide (i.splitStartPfn ≤ pfn) && decide (pfn < i.splitEndPfn)))

def ownPages (i : Info) (n : Nat) : List Nat := (List.range n).filter (ownPage i)

/-- All dumpable pages. -/
def dumpable (i : Info) : List Nat := (List.range i.maxMapnr).filter i.bitmap2

theorem length_ownPages_le (i : Info) {n : Nat} (h : n ≤ i.maxMapnr) :
    (ownPages i n).length ≤ (dumpable i).length := by
  have h1 : ownPages i n = (ownPages i n).filter i.bitmap2 := by
    unfold ownPages
    rw [List.filter_filter]
    apply List.filter_congr
    intro pfn _
    unfold ownPage
    cases i.bitmap2 pfn <;> simp
  rw [h1]
  apply List.Sublist.length_le
  unfold ownPages
  exact (List.filter_sublist.trans (List.range_sublist.2 h)).filter _

/-- The interval of a range. -/
theorem filter_range' (a s e : Nat) : ∀ n : Nat,
    (List.range' a n).filter (fun p => decide (s ≤ p) && decide (p < e)) =
      List.range' (max a s) (min (a + n) e - max a s)
  | 0 => by
    rw [show min (a + 0) e - max a s = 0 by omega]
    rfl
  | n + 1 => by
    rw [List.range'_concat, List.filter_append, filter_range' a s e n, Nat.one_mul]
    by_cases h : s ≤ a + n ∧ a + n < e
    · rw [List.filter_cons_of_pos (by simpa using h), List.filter_nil,
        show min (a + (n + 1)) e - max a s = (min (a + n) e - max a s) + 1 by omega,
        List.range'_concat]
      congr 2
      omega
    · rw [List.filter_cons_of_neg (by simpa using h), List.filter_nil, List.append_nil]
      rcases Nat.lt_or_ge (a + n) s with h1 | h1
      · rw [show min (a + (n + 1)) e - max a s = 0 by omega,
          show min (a + n) e - max a s = 0 by omega]
      · rw [show min (a + (n + 1)) e = min (a + n) e by omega]

theorem splitRange_filter (i : Info) {a b : Nat} (h : a ≤ b) :
    (splitRange i ⟨a, b⟩).filter i.bitmap2 = (List.range' a (b - a)).filter (ownPage i) := by
  unfold splitRange ownPage
  dsimp only
  cases i.flagSplit with
  | false => simp
  | true =>
    have hr := filter_range' a i.splitStartPfn i.splitEndPfn (b - a)
    rw [show a + (b - a) = b by omega] at hr
    rw [if_pos rfl, if_pos rfl, ← hr, List.filter_filter]
    simp

theorem ownPages_append (i : Info) {a b : Nat} (h : a ≤ b) :
    ownPages i b = ownPages i a ++ (splitRange i ⟨a, b⟩).filter i.bitmap2 := by
  rw [splitRange_filter i h]
  unfold ownPages
  rw [← List.filter_append, List.range_eq_range', List.range_eq_range']
  congr 1
  have hr : List.range' 0 a ++ List.range' (0 + a) (b - a) = List.range' 0 (a + (b - a)) :=
    List.range'_append_1
  rw [Nat.zero_add, Nat.add_sub_cancel' h] at hr
  exact hr.symm

/-! ## The whole file -/

/-- The offset of the page data. -/
def Info.offsetPages (i : Info) : Nat := i.dumpHeader.offsetDesc + sizeofPageDesc * i.numDumpable

/-- The complete file. -/
structure Written (i : Info) (f : ByteFile) : Prop where
  headers : Headers i f
  bitmap1 : Holds f i.dumpHeader.offsetBitmap (bitmapBytes i.bitmap1 0 i.maxMapnr)
  bitmap2 : Holds f (i.dumpHeader.offsetBitmap + i.lenBitmap / 2)
    (bitmapBytes i.bitmap2 0 i.maxMapnr)
  descs : Holds f i.dumpHeader.offsetDesc
    (descStream i (i.offsetPages + (zeroStream i).length) (ownPages i i.maxMapnr))
  data : Holds f i.offsetPages (zeroStream i ++ dataStream i (ownPages i i.maxMapnr))

theorem writeZeroPage_ok {o : Out} (hn : NoFail i.opts o) :
    ∃ w, writeZeroPage i (initialWriter i o) = (true, w) ∧
      Streams i i.dumpHeader.offsetDesc i.offsetPages [] w ∧
      Stepped i.dumpHeader.offsetDesc (initialWriter i o) w := by
  have hp : (initialWriter i o).Pair i.opts i.dumpHeader.offsetDesc i.offsetPages [] [] :=
    ⟨cacheInv_init _ rfl _, cacheInv_init _ rfl _, rfl, rfl, hn, by
      unfold Info.offsetPages
      rw [List.length_nil]
      omega⟩
  unfold writeZeroPage
  cases hz : i.excludeZero with
  | false =>
    have hnil : zeroStream i = [] := by simp [zeroStream, hz]
    rw [if_neg (by decide)]
    refine ⟨_, rfl, ⟨?_, ?_⟩, ⟨.refl _ _, rfl⟩⟩
    · rw [hnil]
      exact hp
    · rw [hnil]
      rfl
  | true =>
    have hrep : zeroStream i = List.replicate i.pageSize 0 := by simp [zeroStream, hz]
    obtain ⟨cd1, o1, ch1, e1, s1⟩ := writeCache_ok (initialWriter i o).cdPage hp.noFail hp.dataFd
      (List.replicate i.pageSize 0)
    obtain ⟨p1, k1⟩ := hp.stepData s1
    rw [if_pos rfl, e1]
    refine ⟨_, rfl, ⟨?_, ?_⟩, ⟨k1, rfl⟩⟩
    · rw [hrep]
      exact (show (List.replicate i.pageSize 0 : List UInt8) ++ dataStream i [] =
        [] ++ List.replicate i.pageSize 0 by simp [dataStream]) ▸ p1
    · rw [hrep, List.length_replicate]
      rfl

/-- The 1st bitmap, cycle by cycle. -/
theorem writeBitmap1_ok (hf : Fits i) {o : Out} {base off : Nat} {table data : List UInt8}
    {cdTable cdData : CacheData} (hp : Pair i.opts base off table data cdTable cdData o)
    (hbase : i.dumpHeader.offsetBitmap + divideup i.maxMapnr 8 ≤ base) :
    ∃ o', tryEach (writeKdumpBitmap1Buffer i i.dumpHeader.offsetBitmap) i.cycles o = (true, o') ∧
      Pair i.opts base off table data cdTable cdData o' ∧
      Keeps i.dumpHeader.offsetBitmap o.file o'.file ∧
      Holds o'.file i.dumpHeader.offsetBitmap (bitmapBytes i.bitmap1 0 i.maxMapnr) := by
  apply PfnCycle.tryEach_forEachCycle i.pfnCyclic_pos
    (P := fun a o' => Pair i.opts base off table data cdTable cdData o' ∧
      Keeps i.dumpHeader.offsetBitmap o.file o'.file ∧
      Holds o'.file i.dumpHeader.offsetBitmap (bitmapBytes i.bitmap1 0 a))
  · intro a o1 ha hd hP
    obtain ⟨h1, h2, h3⟩ := hP
    obtain ⟨hle, hend, h8, hpos, hdiv⟩ := cycleAt_facts ha hd
    obtain ⟨o2, hw, hfile, hn⟩ := writeBits_ok h1.noFail hf i.bitmap1 a
      (i.dumpHeader.offsetBitmap + i.bufsizeCyclic * (a / i.pfnCyclic))
    have hlen := congrArg List.length (bitmapBytes_cycleAt i.bitmap1 hle h8)
    simp only [List.length_append, length_bitmapBytes] at hlen
    have hmono := divideup_mono (z := 8) hend
    refine ⟨o2, hw, ?_, ?_, ?_⟩
    · apply h1.pwrite hn hfile
      rw [length_bitmapBytes]
      omega
    · rw [hfile]
      exact h2.trans (keeps_pwrite _ _ (by omega))
    · show Holds o2.file i.dumpHeader.offsetBitmap (bitmapBytes i.bitmap1 0 (i.cycleAt a).endPfn)
      rw [bitmapBytes_cycleAt i.bitmap1 hle h8, hfile, hpos, ← hdiv,
        ← length_bitmapBytes i.bitmap1 0 a]
      exact h3.pwrite_append
  · exact ⟨hp, .refl _ _, holds_nil _ _⟩

/-- The state at the start of the cycle at `a`, with the 1st bitmap at `bm`, half the bitmaps' size
`half` and the descriptors at `desc`. -/
structure AtCycle (i : Info) (bm half desc : Nat) (f0 : ByteFile) (a : Nat) (w : Writer) : Prop where
  streams : Streams i desc (desc + sizeofPageDesc * i.numDumpable) (ownPages i a) w
  keeps : Keeps (bm + half) f0 w.out.file
  bitmap2 : Holds w.out.file (bm + half) (bitmapBytes i.bitmap2 0 a)
  offsetBitmap1 : w.offsetBitmap1 = bm + divideup a 8

/-- **One cycle**: its bits, then its pages. -/
theorem writeCycle_ok (hf : Fits i) (hnum : i.numDumpable = (dumpable i).length)
    {bm half desc : Nat} (hhalf : i.lenBitmap / 2 = half) (hle : divideup i.maxMapnr 8 ≤ half)
    (hdesc : bm + half + half = desc) {f0 : ByteFile} {a : Nat} {w : Writer}
    (ha : a < i.maxMapnr) (hd : i.pfnCyclic ∣ a) (h : AtCycle i bm half desc f0 a w) :
    ∃ w', writeCycle i (i.cycleAt a) w = (true, w') ∧
      AtCycle i bm half desc f0 (i.cycleAt a).endPfn w' := by
  obtain ⟨hae, hend, h8, -, hdiv⟩ := cycleAt_facts ha hd
  have hbytes := bitmapBytes_cycleAt i.bitmap2 hae h8
  have hlen := congrArg List.length hbytes
  have hmono : divideup (i.cycleAt a).endPfn 8 ≤ divideup i.maxMapnr 8 := divideup_mono hend
  have hinc := increment_cycleAt hf a
  have hroom : desc + sizeofPageDesc * (ownPages i a ++
      (splitRange i (i.cycleAt a)).filter i.bitmap2).length ≤
      desc + sizeofPageDesc * i.numDumpable := by
    rw [show i.cycleAt a = ⟨a, (i.cycleAt a).endPfn⟩ from rfl, ← ownPages_append i hae, hnum]
    exact Nat.add_le_add_left (Nat.mul_le_mul_left _ (length_ownPages_le i hend)) _
  have hpages := ownPages_append i hae
  rw [show (⟨a, (i.cycleAt a).endPfn⟩ : PfnCycle) = i.cycleAt a from rfl] at hpages
  -- the bits
  obtain ⟨o1, hw, hfile, hn⟩ := writeBits_ok h.streams.pair.noFail hf i.bitmap2 a
    (w.offsetBitmap1 + half)
  have hoff := h.offsetBitmap1
  simp only [List.length_append, length_bitmapBytes] at hlen
  generalize i.cycleAt a = cycle at *
  have hpair : Streams i desc (desc + sizeofPageDesc * i.numDumpable) (ownPages i a)
      { w with out := o1, offsetBitmap1 := w.offsetBitmap1 + (increment cycle).toNat } := by
    refine ⟨Pair.pwrite h.streams.pair hn hfile ?_, h.streams.offsetData⟩
    rw [length_bitmapBytes]
    omega
  -- the pages
  obtain ⟨w', e, hs, hst⟩ := writePages_ok hpair hroom
  have hk := hst.keeps
  refine ⟨w', ?_, ⟨?_, ?_, ?_, ?_⟩⟩
  · unfold writeCycle writeKdumpBitmap2Buffer
    rw [hhalf, hw]
    exact e
  · rw [hpages]
    exact hs
  · have h1 : Keeps (bm + half) w.out.file o1.file := by
      rw [hfile]
      exact keeps_pwrite _ _ (by omega)
    exact (h.keeps.trans h1).trans (hk.mono (by omega))
  · have h1 : Holds o1.file (bm + half) (bitmapBytes i.bitmap2 0 cycle.endPfn) := by
      rw [hbytes, hfile, show w.offsetBitmap1 + half =
        bm + half + (bitmapBytes i.bitmap2 0 a).length by rw [length_bitmapBytes]; omega]
      exact h.bitmap2.pwrite_append
    exact h1.keeps hk (by rw [length_bitmapBytes]; omega)
  · rw [hst.offsetBitmap1]
    dsimp only
    rw [hinc, Int.toNat_natCast, hoff]
    omega

/-- **The file of a dump** to which no write fails. -/
theorem writeoutDumpfile_ok (hf : Fits i) (hnum : i.numDumpable = (dumpable i).length) {o : Out}
    (hn : NoFail i.opts o) :
    ∃ o', writeoutDumpfile i o = (true, o') ∧ Written i o'.file := by
  obtain ⟨o1, e1, hh, n1⟩ := writeKdumpHeader_ok hn
  obtain ⟨w2, e2, s2, st2⟩ := writeZeroPage_ok n1
  have hb1 : w2.offsetBitmap1 = i.dumpHeader.offsetBitmap := st2.offsetBitmap1
  obtain ⟨half, hhalf⟩ : ∃ half, i.lenBitmap / 2 = half := ⟨_, rfl⟩
  have hle : divideup i.maxMapnr 8 ≤ half := hhalf ▸ divideup_le_half i
  have hdesc : i.dumpHeader.offsetBitmap + half + half = i.dumpHeader.offsetDesc := by
    rw [offsetDesc_eq hf.toPlaces, Nat.add_assoc, ← hhalf, ← lenBitmap_eq]
  have hk2 := st2.keeps
  obtain ⟨o3, e3, p3, k3, hbm1⟩ := writeBitmap1_ok hf s2.pair (by
    rw [← hdesc]
    exact Nat.le_trans (Nat.add_le_add_left hle _) (Nat.le_add_right _ _))
  rw [← hb1] at e3
  obtain ⟨w4, e4, h4⟩ := PfnCycle.tryEach_forEachCycle (f := writeCycle i)
    (P := AtCycle i i.dumpHeader.offsetBitmap half i.dumpHeader.offsetDesc o3.file)
    (s := { w2 with out := o3 }) i.pfnCyclic_pos
    (fun a w ha hd h => writeCycle_ok hf hnum hhalf hle hdesc ha hd h)
    ⟨⟨p3, s2.offsetData⟩, .refl _ _, holds_nil _ _, hb1⟩
  -- the remainders
  obtain ⟨cd5, o5, ch5, e5, s5, hb5⟩ :=
    writeCacheBufsz_ok w4.cdPage h4.streams.pair.noFail h4.streams.pair.dataFd
  obtain ⟨p5, k5⟩ := h4.streams.pair.stepData s5
  obtain ⟨cd6, o6, ch6, e6, s6, hb6⟩ := writeCacheBufsz_ok w4.cdHeader p5.noFail p5.tableFd
  obtain ⟨p6, k6⟩ := p5.stepTable s6 (by simpa using p5.room)
  rw [List.append_nil, List.append_nil] at p6
  have k56 := k5.trans k6
  have hk4 := h4.keeps
  have hbm2 := h4.bitmap2
  have hrun : writeoutDumpfile i o = (true, o6) := by
    unfold writeoutDumpfile writeKdumpPagesAndBitmapCyclic
    rw [e1]
    dsimp only
    rw [e2]
    dsimp only
    rw [e3]
    dsimp only
    unfold Info.cycles
    rw [e4]
    dsimp only
    unfold writeRemainder
    rw [e5]
    dsimp only
    rw [e6]
  have htable := (p6.tableInv.flushed hb6).1
  have hdata := (p6.dataInv.flushed hb5).1
  have hlen1 := length_bitmapBytes i.bitmap1 0 i.maxMapnr
  have hlen2 := length_bitmapBytes i.bitmap2 0 i.maxMapnr
  refine ⟨o6, hrun, ⟨hh.keeps hf.toPlaces ?_, ?_, ?_, htable, hdata⟩⟩
  · generalize i.dumpHeader.offsetBitmap = bm at *
    generalize i.dumpHeader.offsetDesc = desc at *
    exact (hk2.mono (by omega)).trans (k3.trans ((hk4.mono (by omega)).trans (k56.mono (by omega))))
  · generalize i.dumpHeader.offsetBitmap = bm at *
    generalize i.dumpHeader.offsetDesc = desc at *
    exact (hbm1.keeps hk4 (by omega)).keeps k56 (by omega)
  · rw [hhalf]
    generalize i.dumpHeader.offsetBitmap = bm at *
    generalize i.dumpHeader.offsetDesc = desc at *
    exact hbm2.keeps k56 (by omega)

end Kdump
