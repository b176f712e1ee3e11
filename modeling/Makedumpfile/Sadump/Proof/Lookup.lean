import Makedumpfile.Sadump.Read

/-!
# The page lookup of sadump

A page is read from the block whose number is the count of the dumped pages below it. The counts of
whole sections are taken in the other formats' bit order, which changes nothing: a section is a
whole number of bytes (`countP_isOn`). The buffers of the bitmaps hold the block they name whatever
the order of the calls (`Ok`), and a block of a disk set is found on the disk where the
concatenated data areas have it (`lookupDiskset_block`). All of it for the places the bitmaps are
looked for at, which are the right ones while these fit 32 bits (`readImage_lookup`).
-/

namespace Sadump

open Lib ByteFile Bitmap

/-! ## One bitmap -/

/-- The bitmap at `off` of the file `f`: the buffer holds the block it names as far as the file
goes. -/
structure Ok (f : ByteFile) (off : Nat) (b : FileBitmap) : Prop where
  file : b.file = f
  offset : b.offset = off
  length : b.buf.length = 4096
  block : b.noBlock = -1 ∨ ∃ k < 2 ^ 31, b.noBlock = (k : Nat) ∧
    ∀ j < 4096, off + 4096 * k + j < f.length → b.buf.getD j 0 = byteAt f (off + 4096 * k + j)

variable {f : ByteFile} {off : Nat} {b : FileBitmap}

theorem ok_init (f : ByteFile) (off : Nat) : Ok f off { offset := off, file := f } :=
  ⟨rfl, rfl, List.length_replicate, .inl rfl⟩

/-- Looking at a page brings its block into the buffer. -/
theorem load_ok (h : Ok f off b) {pfn : Nat} (hp : pfn < 2 ^ 46) :
    Ok f off (b.load pfn) ∧ (b.load pfn).noBlock = (pfn / 32768 : Nat) := by
  unfold FileBitmap.load pfnBufbitmap
  by_cases hload : pfn = 0 ∨ b.noBlock % 2 ^ 64 ≠ (pfn / 32768 : Nat)
  · rw [if_pos hload, i32_of_fits (by omega) (by omega)]
    refine ⟨?_, rfl⟩
    have hlen := h.length
    have hgot : (pread b.file (b.newOffset pfn) bufsizeBitmap).length ≤ 4096 := by
      rw [length_pread]
      unfold bufsizeBitmap
      omega
    refine { file := h.file, offset := h.offset, length := ?_, block := .inr ⟨pfn / 32768, by omega, rfl,
      fun j hj hin => ?_⟩ }
    · simp only [FileBitmap.readBuf, List.length_append, List.length_drop]
      omega
    · simp only [FileBitmap.readBuf]
      have hnew : b.newOffset pfn = off + 4096 * (pfn / 32768) := by rw [← h.offset]; rfl
      have hj' : j < (pread b.file (b.newOffset pfn) bufsizeBitmap).length := by
        rw [length_pread, h.file, hnew]
        unfold bufsizeBitmap
        omega
      rw [List.getD_eq_getElem?_getD, List.getElem?_append_left hj', ← List.getD_eq_getElem?_getD,
        getD_pread (by unfold bufsizeBitmap; omega), h.file, hnew]
  · rw [if_neg hload]
    refine ⟨h, ?_⟩
    obtain hneg | ⟨k, hk, hkk, -⟩ := h.block
    · rw [hneg] at hload
      omega
    · rw [hkk] at hload ⊢
      omega

/-- The byte of a page that is in the file. -/
theorem load_byte (h : Ok f off b) {pfn : Nat} (hp : pfn < 2 ^ 46) (hin : off + pfn / 8 < f.length) :
    (b.load pfn).buf.getD (pfn % 32768 / 8) 0 = byteAt f (off + pfn / 8) := by
  obtain ⟨hok, hno⟩ := load_ok h hp
  obtain hneg | ⟨k, hk, hkk, hbuf⟩ := hok.block
  · omega
  · obtain rfl : k = pfn / 32768 := by omega
    rw [hbuf _ (by omega) (by omega)]
    congr 1
    omega

theorem isDumpableFile_ok (h : Ok f off b) {pfn : Nat} (hp : pfn < 2 ^ 46) :
    Ok f off (isDumpableFile b pfn).2 ∧
      (off + pfn / 8 < f.length → (isDumpableFile b pfn).1 = isOn f (8 * off + pfn)) := by
  refine ⟨(load_ok h hp).1, fun hin => ?_⟩
  unfold isDumpableFile isOn
  rw [show pfnBufbitmap = 32768 from rfl, load_byte h hp hin, byteAt,
    show (8 * off + pfn) / 8 = off + pfn / 8 by omega, show pfn % 32768 % 8 = (8 * off + pfn) % 8 by omega]

theorem sadumpIsDumpable_ok (h : Ok f off b) {pfn : Nat} (hp : pfn < 2 ^ 46) :
    Ok f off (sadumpIsDumpable b pfn).2 ∧
      (off + pfn / 8 < f.length → (sadumpIsDumpable b pfn).1 = sadumpIsOn f (8 * off + pfn)) := by
  refine ⟨(load_ok h hp).1, fun hin => ?_⟩
  unfold sadumpIsDumpable sadumpIsOn
  rw [show pfnBufbitmap = 32768 from rfl, load_byte h hp hin, byteAt,
    show (8 * off + pfn) / 8 = off + pfn / 8 by omega, show pfn % 32768 % 8 = (8 * off + pfn) % 8 by omega]

/-! ## Counting -/

/-- A count of pages, with an invariant of the bitmap and the bits below `lim`. -/
theorem countPages_ok {test : FileBitmap → Nat → Bool × FileBitmap} {bit : Nat → Bool}
    {P : FileBitmap → Prop} {lim : Nat} (hP : ∀ b p, P b → p < 2 ^ 46 → P (test b p).2)
    (hbit : ∀ b p, P b → p < 2 ^ 46 → p < lim → (test b p).1 = bit p) :
    ∀ (n pfn : Nat) (b : FileBitmap), P b → pfn + n ≤ 2 ^ 46 →
      P (countPages test pfn n b).2 ∧
      (pfn + n ≤ lim → (countPages test pfn n b).1 = (List.range' pfn n).countP bit)
  | 0, _, b, h, _ => ⟨h, fun _ => rfl⟩
  | n + 1, pfn, b, h, hle => by
    obtain ⟨hP', hc⟩ := countPages_ok hP hbit n (pfn + 1) _ (hP b pfn h (by omega)) (by omega)
    refine ⟨hP', fun hlim => ?_⟩
    simp only [countPages]
    rw [hc (by omega), hbit b pfn h (by omega) (by omega), List.range'_succ, List.countP_cons]
    cases bit pfn
    · simp
    · simp [Nat.add_comm]

theorem countP_range_add (bit : Nat → Bool) (a n : Nat) :
    (List.range (a + n)).countP bit = (List.range a).countP bit + (List.range' a n).countP bit := by
  have h : List.range (a + n) = List.range a ++ List.range' a n := by
    have := @List.range'_append_1 0 a n
    rw [Nat.zero_add] at this
    rw [List.range_eq_range', List.range_eq_range', this]
  rw [h, List.countP_append]

/-- **Eight bits in the other order** are as many. -/
theorem countP_isOn (f : List UInt8) (off n : Nat) :
    (List.range (8 * n)).countP (fun p => isOn f (8 * off + p)) =
      (List.range (8 * n)).countP (fun p => sadumpIsOn f (8 * off + p)) := by
  induction n with
  | zero => rfl
  | succ n ih =>
    rw [Nat.mul_succ, countP_range_add, countP_range_add, ih]
    congr 1
    have hbit : ∀ j < 8, isOn f (8 * off + (8 * n + j)) =
        (f.getD (off + n) 0).toNat.testBit j := by
      intro j hj
      unfold isOn
      rw [show (8 * off + (8 * n + j)) / 8 = off + n by omega,
        show (8 * off + (8 * n + j)) % 8 = j by omega]
    have hbit' : ∀ j < 8, sadumpIsOn f (8 * off + (8 * n + j)) =
        (f.getD (off + n) 0).toNat.testBit (7 - j) := by
      intro j hj
      unfold sadumpIsOn
      rw [show (8 * off + (8 * n + j)) / 8 = off + n by omega,
        show (8 * off + (8 * n + j)) % 8 = j by omega]
    rw [show List.range' (8 * n) 8 = [8 * n + 0, 8 * n + 1, 8 * n + 2, 8 * n + 3, 8 * n + 4, 8 * n + 5,
      8 * n + 6, 8 * n + 7] from rfl]
    simp only [List.countP_cons, List.countP_nil, hbit _ (show 0 < 8 by decide),
      hbit _ (show 1 < 8 by decide), hbit _ (show 2 < 8 by decide), hbit _ (show 3 < 8 by decide),
      hbit _ (show 4 < 8 by decide), hbit _ (show 5 < 8 by decide), hbit _ (show 6 < 8 by decide),
      hbit _ (show 7 < 8 by decide), hbit' _ (show 0 < 8 by decide), hbit' _ (show 1 < 8 by decide),
      hbit' _ (show 2 < 8 by decide), hbit' _ (show 3 < 8 by decide), hbit' _ (show 4 < 8 by decide),
      hbit' _ (show 5 < 8 by decide), hbit' _ (show 6 < 8 by decide), hbit' _ (show 7 < 8 by decide),
      Nat.reduceSub]
    omega

theorem sectionNum_eq : sadumpPfSectionNum = 4096 := rfl

/-- The entries of `block_table`: the pages below the end of each section. -/
theorem blockTableLoop_ok {lim : Nat} (hlim : 8 * off + lim ≤ 8 * f.length) :
    ∀ (n sect prev : Nat) (b : FileBitmap), Ok f off b → (sect + n) * sadumpPfSectionNum ≤ 2 ^ 46 →
      (sect * sadumpPfSectionNum ≤ lim →
        prev = (List.range (sect * sadumpPfSectionNum)).countP fun p => isOn f (8 * off + p)) →
      Ok f off (blockTableLoop n sect prev b).2 ∧
      ∀ j < n, (sect + j + 1) * sadumpPfSectionNum ≤ lim →
        (blockTableLoop n sect prev b).1.getD j 0 =
          (List.range ((sect + j + 1) * sadumpPfSectionNum)).countP fun p => isOn f (8 * off + p) := by
  intro n
  induction n with
  | zero =>
    intro _ _ b h _ _
    exact ⟨h, by simp⟩
  | succ n ih =>
    intro sect prev b h hle hprev
    have hmul : (sect + 1) * sadumpPfSectionNum = sect * sadumpPfSectionNum + sadumpPfSectionNum :=
      Nat.succ_mul _ _
    have hnext : (sect + 1) * sadumpPfSectionNum ≤ (sect + (n + 1)) * sadumpPfSectionNum :=
      Nat.mul_le_mul_right _ (by omega)
    obtain ⟨h1, hc⟩ := @countPages_ok isDumpableFile (fun p => isOn f (8 * off + p)) (Ok f off) lim
      (fun b p hb hp => (isDumpableFile_ok hb hp).1)
      (fun b p hb hp hlt => (isDumpableFile_ok hb hp).2 (by omega))
      sadumpPfSectionNum (sect * sadumpPfSectionNum) b h (by omega)
    have hsum : (sect + 1) * sadumpPfSectionNum ≤ lim →
        prev + (countPages isDumpableFile (sect * sadumpPfSectionNum) sadumpPfSectionNum b).1 =
        (List.range ((sect + 1) * sadumpPfSectionNum)).countP fun p => isOn f (8 * off + p) := by
      intro hl
      rw [hprev (by omega), hc (by omega), hmul, countP_range_add]
    obtain ⟨h2, ht⟩ := ih (sect + 1) _ _ h1
      (by rw [show sect + 1 + n = sect + (n + 1) by omega]; exact hle) hsum
    rw [blockTableLoop]
    refine ⟨h2, fun j hj hl => ?_⟩
    cases j with
    | zero =>
      rw [List.getD_cons_zero]
      exact hsum hl
    | succ j =>
      have hj' : sect + 1 + j + 1 = sect + (j + 1) + 1 := by omega
      have hrest := ht j (by omega) (by rw [hj']; exact hl)
      rw [hj'] at hrest
      rw [List.getD_cons_succ]
      exact hrest

/-! ## The disks -/

/-- The data area of a disk. -/
def DisksetInfo.area (d : DisksetInfo) : List UInt8 :=
  pread d.memory d.dataOffset (d.usedDevice - d.dataOffset)

/-- The data area is on the device and has whole blocks. -/
structure DisksetInfo.Whole (bs : Nat) (d : DisksetInfo) : Prop where
  order : d.dataOffset ≤ d.usedDevice
  device : d.usedDevice ≤ d.memory.length
  blocks : bs ∣ d.usedDevice - d.dataOffset

theorem DisksetInfo.Whole.length {bs : Nat} {d : DisksetInfo} (h : d.Whole bs) :
    d.area.length = d.usedDevice - d.dataOffset := by
  have := h.order
  have := h.device
  unfold DisksetInfo.area
  rw [length_pread]
  omega

/-- A block at a multiple of the block size does not cross the end of an area. -/
theorem block_end_le {bs r n : Nat} (hn : bs ∣ n) (h : r * bs < n) : r * bs + bs ≤ n := by
  obtain ⟨m, rfl⟩ := hn
  rw [Nat.mul_comm bs] at h ⊢
  have hr : r < m := Nat.lt_of_mul_lt_mul_right h
  calc r * bs + bs = (r + 1) * bs := by ring
    _ ≤ m * bs := Nat.mul_le_mul_right _ hr

/-- **The block of a disk set** is where the concatenated data areas have it. -/
theorem lookupDiskset_block {bs : Nat} (hpos : 0 < bs) : ∀ (disks : List DisksetInfo) (r : Nat),
    (∀ d ∈ disks, d.Whole bs) →
    match lookupDiskset disks (r * bs) with
    | none => (disks.flatMap DisksetInfo.area).length ≤ r * bs
    | some (d, o) => r * bs + bs ≤ (disks.flatMap DisksetInfo.area).length ∧
        o + d.dataOffset + bs ≤ d.memory.length ∧
        pread d.memory (o + d.dataOffset) bs = pread (disks.flatMap DisksetInfo.area) (r * bs) bs
  | [], r, _ => Nat.zero_le _
  | d :: disks, r, h => by
    have hd := h d (by simp)
    have hlen := hd.length
    rw [lookupDiskset, List.flatMap_cons]
    by_cases hlt : r * bs < d.usedDevice - d.dataOffset
    · have hend := block_end_le hd.blocks hlt
      have hdev := hd.device
      have hord := hd.order
      rw [if_pos hlt]
      refine ⟨by rw [List.length_append]; omega, by omega, ?_⟩
      apply List.ext_getElem?
      intro j
      rw [getElem?_pread, getElem?_pread]
      by_cases hj : j < bs
      · rw [if_pos hj, if_pos hj, List.getElem?_append_left (by omega), DisksetInfo.area,
          getElem?_pread, if_pos (by omega)]
        congr 1
        omega
      · rw [if_neg hj, if_neg hj]
    · rw [if_neg hlt]
      obtain ⟨m, hm⟩ := hd.blocks
      have hle : m ≤ r := by
        apply Nat.le_of_not_lt
        intro hrm
        have := Nat.mul_le_mul_right bs hrm
        rw [Nat.succ_mul, Nat.mul_comm m] at this
        omega
      have hsub : r * bs - (d.usedDevice - d.dataOffset) = (r - m) * bs := by
        rw [hm, Nat.mul_comm bs, ← Nat.sub_mul]
      have ih := lookupDiskset_block hpos disks (r - m) fun d' hd' => h d' (List.mem_cons_of_mem _ hd')
      rw [hsub]
      split
      · rename_i hnone
        rw [hnone] at ih
        simp only at ih
        rw [List.length_append]
        omega
      · rename_i d' o' hsome
        rw [hsome] at ih
        simp only at ih
        obtain ⟨hl, hdev, hread⟩ := ih
        refine ⟨by rw [List.length_append]; omega, hdev, ?_⟩
        rw [hread]
        apply List.ext_getElem?
        intro j
        rw [getElem?_pread, getElem?_pread]
        by_cases hj : j < bs
        · rw [if_pos hj, if_pos hj, List.getElem?_append_right (by omega)]
          congr 1
          omega
        · rw [if_neg hj, if_neg hj]

/-! ## What a read of a page gives -/

variable (si : SadumpInfo)

/-- The data areas, one after the other. -/
def SadumpInfo.data : List UInt8 :=
  match si.flagSadump with
  | .diskset => si.disksetInfo.flatMap DisksetInfo.area
  | _ => si.memory.drop si.dataOffset

/-- The page of `pfn`, with the RAM bitmap at `ramOff` and the dumpable bitmap at `dumpOff`: nothing
for a page that is not RAM, zeros for one that was not dumped, else the block whose number is the
count of the dumped pages below. -/
def SadumpInfo.pageAt (ramOff dumpOff pfn : Nat) : Option (List UInt8) :=
  let dumpable := fun p => sadumpIsOn si.memory (8 * dumpOff + p)
  if si.maxMapnr ≤ pfn ∨ sadumpIsOn si.memory (8 * ramOff + pfn) = false then none
  else if dumpable pfn = false then some (List.replicate si.blockSize 0)
  else
    let r := (List.range pfn).countP dumpable
    if r * si.blockSize + si.blockSize ≤ si.data.length then
      some (pread si.data (r * si.blockSize) si.blockSize)
    else none

/-- What the reads need: pages are blocks, the bitmaps at these places are in the file, and the data
areas of a disk set have whole blocks. -/
structure SadumpInfo.Readable (ramOff dumpOff : Nat) : Prop where
  page : si.blockSize = 2 ^ si.pageShift
  limit : si.maxMapnr ≤ 2 ^ 45
  ram : 8 * ramOff + si.maxMapnr ≤ 8 * si.memory.length
  dumpable : 8 * dumpOff + si.maxMapnr ≤ 8 * si.memory.length
  disks : si.flagSadump = .diskset → ∀ d ∈ si.disksetInfo, d.Whole si.blockSize

/-- What stays from call to call. -/
structure StateOk (ramOff dumpOff : Nat) (s : State) : Prop where
  ram : Ok si.memory ramOff s.ramBitmap
  dumpable : Ok si.memory dumpOff s.bitmapMemory
  table : ∀ j, (j + 1) * sadumpPfSectionNum ≤ si.maxMapnr → s.blockTable.getD j 0 =
    (List.range ((j + 1) * sadumpPfSectionNum)).countP fun p => sadumpIsOn si.memory (8 * dumpOff + p)

variable {si} {ramOff dumpOff : Nat}

theorem zeroFilter_ok : ∀ (n pfn : Nat) (s : State), pfn + n ≤ 2 ^ 46 → StateOk si ramOff dumpOff s →
    StateOk si ramOff dumpOff (zeroFilter pfn n s)
  | 0, _, _, _, h => h
  | n + 1, pfn, s, hle, h => by
    have hram := (sadumpIsDumpable_ok h.ram (show pfn < 2 ^ 46 by omega)).1
    have hdump := (sadumpIsDumpable_ok h.dumpable (show pfn < 2 ^ 46 by omega)).1
    rw [zeroFilter]
    dsimp only
    split
    · split
      · exact zeroFilter_ok n (pfn + 1) _ (by omega) ⟨hram, hdump, h.table⟩
      · exact ⟨hram, hdump, h.table⟩
    · exact zeroFilter_ok n (pfn + 1) _ (by omega) ⟨hram, h.dumpable, h.table⟩

theorem initialize_ok (h : si.Readable si.ramBitmapOffset si.dumpableBitmapOffset) :
    StateOk si si.ramBitmapOffset si.dumpableBitmapOffset (sadumpInitializeBitmapMemory si) := by
  have hlim := h.limit
  have hsect : divideup si.maxMapnr sadumpPfSectionNum * sadumpPfSectionNum <
      si.maxMapnr + sadumpPfSectionNum := divideup_mul_lt _ (by decide)
  have hS := sectionNum_eq
  obtain ⟨hok, ht⟩ := blockTableLoop_ok h.dumpable (divideup si.maxMapnr sadumpPfSectionNum) 0 0 _
    (ok_init si.memory si.dumpableBitmapOffset) (by rw [Nat.zero_add]; omega)
    (by intro _; rw [Nat.zero_mul]; rfl)
  unfold sadumpInitializeBitmapMemory
  refine zeroFilter_ok _ _ _ (by omega) ⟨ok_init _ _, hok, fun j hj => ?_⟩
  have hjlt : j < divideup si.maxMapnr sadumpPfSectionNum := by
    have hle := le_divideup_mul si.maxMapnr (show 0 < sadumpPfSectionNum by decide)
    have := Nat.le_of_mul_le_mul_right (Nat.le_trans hj hle) (by decide)
    omega
  have hcount := ht j hjlt (by rw [Nat.zero_add]; exact hj)
  rw [Nat.zero_add] at hcount
  rw [hcount, hS, show (j + 1) * 4096 = 8 * (512 * (j + 1)) by ring, countP_isOn]

/-- **The number of dumped pages below.** -/
theorem pfnToBlock_ok (h : si.Readable ramOff dumpOff) {s : State} (hs : StateOk si ramOff dumpOff s)
    {pfn : Nat} (hp : pfn < si.maxMapnr) :
    (pfnToBlock s pfn).1 = (List.range pfn).countP (fun p => sadumpIsOn si.memory (8 * dumpOff + p)) ∧
      Ok si.memory dumpOff (pfnToBlock s pfn).2 := by
  have hlim := h.limit
  have hdump := h.dumpable
  have hsect : pfn / sadumpPfSectionNum * sadumpPfSectionNum ≤ pfn := Nat.div_mul_le_self _ _
  obtain ⟨hok, hc⟩ := @countPages_ok sadumpIsDumpable (fun p => sadumpIsOn si.memory (8 * dumpOff + p))
    (Ok si.memory dumpOff) si.maxMapnr (fun b p hb hp => (sadumpIsDumpable_ok hb hp).1)
    (fun b p hb hp hlt => (sadumpIsDumpable_ok hb hp).2 (by omega))
    (pfn - pfn / sadumpPfSectionNum * sadumpPfSectionNum) (pfn / sadumpPfSectionNum * sadumpPfSectionNum)
    s.bitmapMemory hs.dumpable (by omega)
  refine ⟨?_, hok⟩
  have hsum := countP_range_add (fun p => sadumpIsOn si.memory (8 * dumpOff + p))
    (pfn / sadumpPfSectionNum * sadumpPfSectionNum)
    (pfn - pfn / sadumpPfSectionNum * sadumpPfSectionNum)
  rw [Nat.add_sub_cancel' hsect] at hsum
  unfold pfnToBlock
  dsimp only
  rw [hsum, hc (by omega)]
  congr 1
  by_cases h0 : pfn / sadumpPfSectionNum ≠ 0
  · rw [if_pos h0]
    have hj : pfn / sadumpPfSectionNum - 1 + 1 = pfn / sadumpPfSectionNum :=
      Nat.sub_add_cancel (Nat.one_le_iff_ne_zero.2 h0)
    rw [hs.table _ (by rw [hj]; omega), hj]
  · rw [if_neg h0, not_not.1 h0, Nat.zero_mul]
    rfl

/-- A complete read of a page that is in the file. -/
theorem readPage_eq (h : si.blockSize = 2 ^ si.pageShift) (g : ByteFile) (o : Nat) :
    si.readPage g o =
      if o + si.blockSize ≤ g.length then some (pread g o si.blockSize) else none := by
  have hpos : 0 < si.blockSize := by
    rw [h]
    exact Nat.two_pow_pos _
  unfold SadumpInfo.readPage
  dsimp only
  rw [← h, length_pread]
  by_cases hle : o + si.blockSize ≤ g.length
  · rw [if_pos (by omega), if_pos hle]
  · rw [if_neg (by omega), if_neg hle]

/-- The data of a block, of a single device or of a disk set. -/
theorem readData_eq (h : si.Readable ramOff dumpOff) (r : Nat) :
    si.readData (r * si.blockSize) =
      if r * si.blockSize + si.blockSize ≤ si.data.length then
        some (pread si.data (r * si.blockSize) si.blockSize)
      else none := by
  have hpos : 0 < si.blockSize := by
    rw [h.page]
    exact Nat.two_pow_pos _
  have hsingle : si.readPage si.memory (r * si.blockSize + si.dataOffset) =
      if r * si.blockSize + si.blockSize ≤ (si.memory.drop si.dataOffset).length then
        some (pread (si.memory.drop si.dataOffset) (r * si.blockSize) si.blockSize)
      else none := by
    rw [readPage_eq h.page, List.length_drop]
    have hread : pread (si.memory.drop si.dataOffset) (r * si.blockSize) si.blockSize =
        pread si.memory (r * si.blockSize + si.dataOffset) si.blockSize := by
      unfold pread
      rw [List.drop_drop, Nat.add_comm]
    by_cases hle : r * si.blockSize + si.dataOffset + si.blockSize ≤ si.memory.length
    · rw [if_pos hle, if_pos (by omega), hread]
    · rw [if_neg hle, if_neg (by omega)]
  cases hflag : si.flagSadump with
  | singlePartition => simpa only [SadumpInfo.readData, SadumpInfo.data, hflag] using hsingle
  | mediaBackup => simpa only [SadumpInfo.readData, SadumpInfo.data, hflag] using hsingle
  | diskset =>
    simp only [SadumpInfo.readData, SadumpInfo.data, hflag]
    have hblock := lookupDiskset_block hpos si.disksetInfo r (h.disks hflag)
    split
    · rename_i hnone
      rw [hnone] at hblock
      simp only at hblock
      rw [if_neg (by omega)]
    · rename_i d o hsome
      rw [hsome] at hblock
      obtain ⟨hle, hdev, hread⟩ := hblock
      rw [readPage_eq h.page, if_pos hdev, if_pos hle, hread]

/-- **One read**, from any state the calls before left. -/
theorem readpageSadump_ok (h : si.Readable ramOff dumpOff) {s : State}
    (hs : StateOk si ramOff dumpOff s) (paddr : Nat) :
    (readpageSadump si paddr s).1 =
        si.pageAt ramOff dumpOff (si.backup paddr / 2 ^ si.pageShift) ∧
      StateOk si ramOff dumpOff (readpageSadump si paddr s).2 := by
  unfold readpageSadump SadumpInfo.pageAt
  generalize si.backup paddr / 2 ^ si.pageShift = pfn
  have hlim := h.limit
  have hram := h.ram
  have hdump := h.dumpable
  by_cases hmax : si.maxMapnr ≤ pfn
  · simp only [hmax, ↓reduceIte, true_or]
    exact ⟨trivial, hs⟩
  obtain ⟨hok1, hbit1⟩ := sadumpIsDumpable_ok hs.ram (show pfn < 2 ^ 46 by omega)
  obtain ⟨hok2, hbit2⟩ := sadumpIsDumpable_ok hs.dumpable (show pfn < 2 ^ 46 by omega)
  have hbit1 := hbit1 (by omega)
  have hbit2 := hbit2 (by omega)
  simp only [hmax, ↓reduceIte, false_or]
  rw [hbit1]
  cases hr : sadumpIsOn si.memory (8 * ramOff + pfn) with
  | false => exact ⟨rfl, hok1, hs.dumpable, hs.table⟩
  | true =>
    simp only [↓reduceIte, Bool.true_eq_false]
    rw [hbit2]
    cases hd : sadumpIsOn si.memory (8 * dumpOff + pfn) with
    | false =>
      simp only [↓reduceIte, Bool.false_eq_true]
      refine ⟨by rw [h.page], hok1, hok2, hs.table⟩
    | true =>
      have hs2 : StateOk si ramOff dumpOff { s with
          ramBitmap := (sadumpIsDumpable s.ramBitmap pfn).2
          bitmapMemory := (sadumpIsDumpable s.bitmapMemory pfn).2 } := ⟨hok1, hok2, hs.table⟩
      obtain ⟨hcount, hok3⟩ := pfnToBlock_ok h hs2 (show pfn < si.maxMapnr by omega)
      simp only [↓reduceIte, Bool.true_eq_false, hcount, readData_eq h, true_and]
      exact ⟨hok1, hok3, hs.table⟩

/-- **Every order of calls.** -/
theorem readPages_ok (h : si.Readable ramOff dumpOff) : ∀ (paddrs : List Nat) (s : State),
    StateOk si ramOff dumpOff s →
    readPages si paddrs s =
      paddrs.map fun p => si.pageAt ramOff dumpOff (si.backup p / 2 ^ si.pageShift)
  | [], _, _ => rfl
  | p :: paddrs, s, hs => by
    obtain ⟨hr, hs'⟩ := readpageSadump_ok h hs p
    rw [readPages, List.map_cons, hr, readPages_ok h paddrs _ hs']

/-! ## Images -/

/-- A sadump image: pages are blocks, the bitmaps are on the first device and have a bit for every
page below `max_mapnr`, and the data areas of a disk set have whole blocks. -/
structure SadumpInfo.Image (si : SadumpInfo) : Prop where
  page : si.blockSize = 2 ^ si.pageShift
  bitmaps : si.dataOffset ≤ si.memory.length
  ram : si.maxMapnr ≤ 8 * (si.blockSize * si.bitmapBlocks)
  dumpable : si.maxMapnr ≤ 8 * (si.blockSize * si.dumpableBitmapBlocks)
  disks : si.flagSadump = .diskset → ∀ d ∈ si.disksetInfo, d.Whole si.blockSize

/-- The page of `pfn` in the image: the RAM bitmap follows the sub header, the dumpable bitmap the RAM
bitmap. -/
def SadumpInfo.pageOf (si : SadumpInfo) (pfn : Nat) : Option (List UInt8) :=
  si.pageAt (si.subHdrOffset + si.blockSize * si.subHdrSize)
    (si.subHdrOffset + si.blockSize * si.subHdrSize + si.blockSize * si.bitmapBlocks) pfn

/-- The address is in the region that kdump backed up. -/
def SadumpInfo.InBackup (si : SadumpInfo) (paddr : Nat) : Prop :=
  si.kdumpBackedUp = true ∧ si.backupSrcStart ≤ paddr ∧ paddr < si.backupSrcStart + si.backupSrcSize

theorem backup_eq {paddr : Nat} (h : ¬ si.InBackup paddr) : si.backup paddr = paddr := if_neg h

/-- The reads of an image give the pages at the places the bitmaps are looked for at. -/
theorem readImage_pageAt (h : si.Readable si.ramBitmapOffset si.dumpableBitmapOffset)
    {paddrs : List Nat} (hout : ∀ p ∈ paddrs, ¬ si.InBackup p) :
    readImage si paddrs =
      paddrs.map fun p => si.pageAt si.ramBitmapOffset si.dumpableBitmapOffset (p / 2 ^ si.pageShift) := by
  unfold readImage
  rw [readPages_ok h paddrs _ (initialize_ok h)]
  apply List.map_congr_left
  intro p hp
  rw [backup_eq (hout p hp)]

/-- **The sadump page lookup** is right, in every order of calls, as long as the RAM bitmap ends
below 4 GiB after the sub header's start. -/
theorem readImage_lookup (si : SadumpInfo) (h : si.Image)
    (hfit : si.blockSize * (si.subHdrSize + si.bitmapBlocks) < 2 ^ 32) (paddrs : List Nat)
    (hout : ∀ p ∈ paddrs, ¬ si.InBackup p) :
    readImage si paddrs = paddrs.map fun p => si.pageOf (p / 2 ^ si.pageShift) := by
  have hpos : 0 < si.blockSize := by
    rw [h.page]
    exact Nat.two_pow_pos _
  have hsum : si.subHdrSize + si.bitmapBlocks ≤ si.blockSize * (si.subHdrSize + si.bitmapBlocks) :=
    Nat.le_mul_of_pos_left _ hpos
  have hmul : si.blockSize * (si.subHdrSize + si.bitmapBlocks) =
      si.blockSize * si.subHdrSize + si.blockSize * si.bitmapBlocks := Nat.mul_add _ _ _
  have hram : si.ramBitmapOffset = si.subHdrOffset + si.blockSize * si.subHdrSize := by
    unfold SadumpInfo.ramBitmapOffset
    rw [Nat.mod_eq_of_lt (by omega)]
  have hdump : si.dumpableBitmapOffset =
      si.subHdrOffset + si.blockSize * si.subHdrSize + si.blockSize * si.bitmapBlocks := by
    unfold SadumpInfo.dumpableBitmapOffset
    rw [Nat.mod_eq_of_lt (show si.subHdrSize + si.bitmapBlocks < 2 ^ 32 by omega),
      Nat.mod_eq_of_lt hfit, hmul, Nat.add_assoc]
  have hdata : si.dataOffset = si.subHdrOffset + si.blockSize * si.subHdrSize +
      (si.blockSize * si.bitmapBlocks + si.blockSize * si.dumpableBitmapBlocks) := by
    unfold SadumpInfo.dataOffset
    rw [Nat.mul_comm si.subHdrSize]
  have hbm := h.bitmaps
  have hmax := h.ram
  have hmax' := h.dumpable
  have hread : si.Readable si.ramBitmapOffset si.dumpableBitmapOffset := by
    refine ⟨h.page, by omega, ?_, ?_, h.disks⟩
    · rw [hram]
      omega
    · rw [hdump]
      omega
  rw [readImage_pageAt hread hout, hram, hdump]
  rfl

/-- Two disks with blocks of 8 bytes: pages 0 to 3 are RAM, page 1 was not dumped, and the block of
page 3 is the first one of the second disk. -/
def twoDisks : SadumpInfo where
  flagSadump := .diskset
  pageShift := 3
  memory := List.replicate 16 0 ++ (0xf0 :: List.replicate 7 0) ++ (0xb0 :: List.replicate 7 0) ++
    List.replicate 8 1 ++ List.replicate 8 2
  usedDevice := 48
  others := [(List.replicate 8 0 ++ List.replicate 8 3, 16)]
  blockSize := 8
  subHdrOffset := 16
  subHdrSize := 0
  bitmapBlocks := 1
  dumpableBitmapBlocks := 1
  maxMapnr := 8

theorem readImage_lookup_twoDisks :
    readImage twoDisks [24, 8, 0, 16, 32, 64] =
      [some (List.replicate 8 3), some (List.replicate 8 0), some (List.replicate 8 1),
        some (List.replicate 8 2), none, none] := by
  have hdisks : ∀ d ∈ twoDisks.disksetInfo, d.Whole twoDisks.blockSize := by
    intro d hd
    rcases List.mem_cons.1 hd with rfl | hd
    · exact ⟨by decide, by decide, by decide⟩
    · obtain rfl : d = ⟨List.replicate 8 0 ++ List.replicate 8 3, 16, 8⟩ := List.mem_singleton.1 hd
      exact ⟨by decide, by decide, by decide⟩
  rw [readImage_lookup twoDisks ⟨rfl, by decide, by decide, by decide, fun _ => hdisks⟩ (by decide) _
    (by intro p _ h; cases h.1)]
  decide +kernel

/-- A machine with `2 ^ 35` pages: its RAM bitmap has 4 GiB, so the offset of the dumpable bitmap
wraps around to the RAM bitmap. The image ends where its data would begin. -/
def farImage (memory : ByteFile) : SadumpInfo where
  flagSadump := .singlePartition
  pageShift := 12
  memory := memory
  usedDevice := 8192 + 2 ^ 33
  others := []
  blockSize := 4096
  subHdrOffset := 8192
  subHdrSize := 0
  bitmapBlocks := 2 ^ 20
  dumpableBitmapBlocks := 2 ^ 20
  maxMapnr := 2 ^ 35

theorem farImage_offsets (memory : ByteFile) :
    (farImage memory).dataOffset = 8192 + 2 ^ 33 ∧ (farImage memory).ramBitmapOffset = 8192 ∧
      (farImage memory).dumpableBitmapOffset = 8192 := by
  simp only [farImage, SadumpInfo.dataOffset, SadumpInfo.ramBitmapOffset,
    SadumpInfo.dumpableBitmapOffset]
  omega

theorem farImage_image {memory : ByteFile} (hlen : memory.length = 8192 + 2 ^ 33) :
    (farImage memory).Image := by
  refine ⟨by simp only [farImage]; omega, ?_, by simp only [farImage]; omega,
    by simp only [farImage]; omega, fun h => by simp [farImage] at h⟩
  rw [(farImage_offsets memory).1]
  simp only [farImage]
  omega

theorem farImage_pages {memory : ByteFile} (hlen : memory.length = 8192 + 2 ^ 33)
    (hram : sadumpIsOn memory (8 * 8192 + 0) = true)
    (hdump : sadumpIsOn memory (8 * (8192 + 2 ^ 32) + 0) = false) :
    readImage (farImage memory) [0] = [none] ∧
      (farImage memory).pageOf 0 = some (List.replicate 4096 0) := by
  obtain ⟨hdo, hro, hdb⟩ := farImage_offsets memory
  have hback : ∀ p, ¬ (farImage memory).InBackup p := by simp [SadumpInfo.InBackup, farImage]
  have hmem : (farImage memory).memory = memory := by simp only [farImage]
  have hread : (farImage memory).Readable (farImage memory).ramBitmapOffset
      (farImage memory).dumpableBitmapOffset := by
    refine ⟨by simp only [farImage]; omega, by simp only [farImage]; omega, ?_, ?_,
      fun h => by simp [farImage] at h⟩
    · rw [hro]
      simp only [farImage]
      omega
    · rw [hdb]
      simp only [farImage]
      omega
  have hdata : (farImage memory).data.length = 0 := by
    have hd : (farImage memory).data = memory.drop (farImage memory).dataOffset := by
      simp only [SadumpInfo.data, farImage]
    rw [hd, List.length_drop, hdo, hlen, Nat.sub_self]
  have hmax : ¬ (farImage memory).maxMapnr ≤ 0 := by
    simp only [farImage]
    omega
  have hbs : (farImage memory).blockSize = 4096 := by simp only [farImage]
  constructor
  · have hnone : (farImage memory).pageAt 8192 8192 0 = none := by
      unfold SadumpInfo.pageAt
      simp only [hmem, hram, hmax, hdata, hbs, Bool.true_eq_false, or_self, ↓reduceIte]
      rw [if_neg (by omega)]
    rw [readImage_pageAt hread fun p _ => hback p, hro, hdb, List.map_cons, List.map_nil,
      Nat.zero_div, hnone]
  · have hoffs : (farImage memory).subHdrOffset +
        (farImage memory).blockSize * (farImage memory).subHdrSize = 8192 := by simp only [farImage]
    have hoffs' : 8192 + (farImage memory).blockSize * (farImage memory).bitmapBlocks =
        8192 + 2 ^ 32 := by
      simp only [farImage]
      omega
    unfold SadumpInfo.pageOf SadumpInfo.pageAt
    rw [hoffs, hoffs']
    simp only [hmem, hram, hdump, hmax, hbs, Bool.true_eq_false, or_self, ↓reduceIte]

/-- Only the first bit of the RAM bitmap is set: page 0 is RAM and was not dumped. -/
def farMemory (n : Nat) : ByteFile := List.replicate 8192 0 ++ 0x80 :: List.replicate n 0

theorem farMemory_byte (n : Nat) {i : Nat} (h : 8192 < i) : (farMemory n).getD i 0 = 0 := by
  obtain ⟨j, rfl⟩ := Nat.exists_eq_add_of_lt h
  unfold farMemory
  rw [List.getD_eq_getElem?_getD, List.getElem?_append_right (by rw [List.length_replicate]; omega),
    List.length_replicate, show 8192 + j + 1 - 8192 = j + 1 by omega, List.getElem?_cons_succ,
    List.getElem?_replicate]
  split <;> rfl

theorem farMemory_first (n : Nat) : (farMemory n).getD 8192 0 = 0x80 := by
  unfold farMemory
  rw [List.getD_eq_getElem?_getD, List.getElem?_append_right (by rw [List.length_replicate]),
    List.length_replicate]
  rfl

/-- Page 0 should read as zeros; the read fails, as the image has no data. -/
theorem readImage_wrapped_offset :
    (farImage (farMemory (2 ^ 33 - 1))).Image ∧ ¬ (farImage (farMemory (2 ^ 33 - 1))).InBackup 0 ∧
      readImage (farImage (farMemory (2 ^ 33 - 1))) [0] = [none] ∧
      (farImage (farMemory (2 ^ 33 - 1))).pageOf 0 = some (List.replicate 4096 0) := by
  have hlen : (farMemory (2 ^ 33 - 1)).length = 8192 + 2 ^ 33 := by
    unfold farMemory
    rw [List.length_append, List.length_replicate, List.length_cons, List.length_replicate]
    omega
  have hbit : sadumpIsOn (farMemory (2 ^ 33 - 1)) (8 * 8192 + 0) = true := by
    unfold sadumpIsOn
    rw [show (8 * 8192 + 0) / 8 = 8192 by omega, farMemory_first]
    decide
  have hzero : sadumpIsOn (farMemory (2 ^ 33 - 1)) (8 * (8192 + 2 ^ 32) + 0) = false := by
    unfold sadumpIsOn
    rw [farMemory_byte _ (by omega)]
    simp
  have hback : ∀ m, ¬ (farImage m).InBackup 0 := by simp [SadumpInfo.InBackup, farImage]
  exact ⟨farImage_image hlen, hback _, farImage_pages hlen hbit hzero⟩

end Sadump
