import Makedumpfile.Kdump.Proof.RoundTrip
import Makedumpfile.Output.Attempt

/-!
# TRUE means complete

The calls of `write(2)` may do anything: write a part, be interrupted, find the device full, fail, or be
cut by the size limit, at any byte and as often as they like. When the writers still return TRUE, the
file is the complete one (`writeoutDumpfile_true`).

The point is `write_kdump_page`, which does not look at the results of its two `write_cache` calls: a
cache whose write has failed there keeps its bytes and its offset, and either a later flush puts all of
them into the file, or some call that is looked at fails.
-/

namespace Kdump

open Lib Output ByteFile

variable {i : Info} {o o' : Out} {base off : Nat} {l : List Nat}

/-! ## One page -/

/-- The two caches of the writer, whatever happened to the writes before. -/
def Writer.Areas (w : Writer) (base off : Nat) (table data : List UInt8) : Prop :=
  Output.Areas base off table data w.cdHeader w.cdPage w.out.file

theorem writeCdBuf_true (hdry : i.opts.flagDryRun = false) {cd : CacheData} (hfd : cd.fd = .file)
    (h : writeCdBuf i.opts cd o = (true, o')) :
    CacheTry cd o [] { cd with buf := [], offset := cd.offset + cd.buf.length } o' cd.buf [] := by
  unfold writeCdBuf at h
  split at h
  case isTrue hb =>
    cases h
    exact ⟨by simp [hb], rfl, by simp, List.nil_prefix, rfl, rfl⟩
  case isFalse =>
    rw [hfd] at h
    exact ⟨by rw [List.append_nil]; exact writeBuffer_true hdry h, rfl, by simp, List.nil_prefix, rfl,
      rfl⟩

variable {w w' : Writer} {table data : List UInt8}

theorem flushBoth_true (hdry : i.opts.flagDryRun = false) (h : w.Areas base off table data)
    (hrun : flushBoth i w = (true, w')) :
    w'.Areas base off table data ∧ Stepped base w w' ∧ w'.offsetData = w.offsetData := by
  unfold flushBoth at hrun
  split at hrun
  case h_1 => cases hrun
  case h_2 o1 e1 =>
    split at hrun
    case h_1 =>
      split at hrun
      · cases hrun
      · dsimp only at hrun
        split at hrun <;> cases hrun
    case h_2 o2 e2 =>
      cases hrun
      obtain ⟨p1, k1⟩ := Areas.tryTable h (writeCdBuf_true hdry h.tableFd e1) (by simpa using h.room)
      obtain ⟨p2, k2⟩ := p1.tryData (writeCdBuf_true hdry p1.dataFd e2)
      rw [List.append_nil, List.append_nil] at p2
      exact ⟨p2, ⟨k1.trans k2, rfl⟩, rfl⟩

/-- A page is taken by the two caches, though their results are not looked at. -/
theorem writeKdumpPage_true (hdry : i.opts.flagDryRun = false) (pd : PageDesc) (page : List UInt8)
    (h : w.Areas base off table data) (hroom : base + table.length + sizeofPageDesc ≤ off)
    (hrun : writeKdumpPage i pd page w = (true, w')) :
    w'.Areas base off (table ++ pd.encode i.opts.bigendian) (data ++ page) ∧ Stepped base w w' ∧
      w'.offsetData = w.offsetData := by
  unfold writeKdumpPage at hrun
  dsimp only at hrun
  split at hrun
  case h_1 => cases hrun
  case h_2 w1 e1 =>
    cases hrun
    obtain ⟨p1, s1, d1⟩ : w1.Areas base off table data ∧ Stepped base w w1 ∧
        w1.offsetData = w.offsetData := by
      split at e1
      · exact flushBoth_true hdry h e1
      · cases e1
        exact ⟨h, ⟨.refl _ _, rfl⟩, rfl⟩
    obtain ⟨kept, part, t2⟩ := writeCache_try hdry p1.tableFd (pd.encode i.opts.bigendian) w1.out
    obtain ⟨p2, k2⟩ := Areas.tryTable p1 t2 (by
      simp only [List.length_append, PageDesc.length_encode]
      omega)
    obtain ⟨kept', part', t3⟩ := writeCache_try hdry p2.dataFd page
      (writeCache i.opts w1.cdHeader (pd.encode i.opts.bigendian) w1.out).2.2
    obtain ⟨p3, k3⟩ := p2.tryData t3
    exact ⟨p3, ⟨s1.keeps.trans (k2.trans k3), s1.offsetBitmap1⟩, d1⟩

/-- The state after the pages `l`, whatever happened to the writes. -/
structure Held (i : Info) (base off : Nat) (l : List Nat) (w : Writer) : Prop where
  areas : w.Areas base off (descStream i (off + (zeroStream i).length) l)
    (zeroStream i ++ dataStream i l)
  offsetData : w.offsetData = off + (zeroStream i).length + (dataStream i l).length

theorem writePage_true (hdry : i.opts.flagDryRun = false) {pfn : Nat} (h : Held i base off l w)
    (hroom : base + sizeofPageDesc * (l.length + 1) ≤ off)
    (hrun : writePage i i.pdZero pfn w = (true, w')) :
    Held i base off (l ++ [pfn]) w' ∧ Stepped base w w' := by
  have hlen := length_descStream i (off + (zeroStream i).length) l
  have hdesc : descStream i (off + (zeroStream i).length) (l ++ [pfn]) =
      descStream i (off + (zeroStream i).length) l ++
        (pageDesc i w.offsetData pfn).encode i.opts.bigendian := by
    unfold descStream
    rw [descs_append, List.flatMap_append, h.offsetData]
    simp [descs]
  have hdata : dataStream i (l ++ [pfn]) = dataStream i l ++ pageData i pfn := by
    rw [dataStream_append]
    simp [dataStream]
  rw [Nat.mul_succ] at hroom
  unfold writePage at hrun
  by_cases hz : isZero i pfn = true
  · have hz' : i.excludeZero = true ∧ isZeroPage i.pageSize (i.page pfn) = true := by
      simpa [isZero] using hz
    rw [if_pos hz'] at hrun
    have hpd : pageDesc i w.offsetData pfn = i.pdZero := by rw [pageDesc, if_pos hz]
    have hnil : pageData i pfn = [] := by rw [pageData, if_pos hz]
    rw [hpd] at hdesc
    rw [hnil, List.append_nil] at hdata
    obtain ⟨kept, part, t1⟩ :=
      writeCache_try hdry h.areas.tableFd (i.pdZero.encode i.opts.bigendian) w.out
    obtain ⟨p1, k1⟩ := Areas.tryTable h.areas t1 (by
      simp only [List.length_append, PageDesc.length_encode]
      omega)
    obtain ⟨-, rfl⟩ := Prod.mk.inj hrun
    refine ⟨⟨?_, ?_⟩, ⟨k1, rfl⟩⟩
    · rw [hdesc, hdata]
      exact p1
    · rw [hdata]
      exact h.offsetData
  · have hz' : ¬ (i.excludeZero = true ∧ isZeroPage i.pageSize (i.page pfn) = true) := by
      simpa [isZero] using hz
    rw [if_neg hz'] at hrun
    have hpage : pageData i pfn = (compressPage i.libs i.flagCompress i.pageSize (i.page pfn)).2 := by
      rw [pageData, if_neg hz]
    have hpd : pageDesc i w.offsetData pfn =
        { offset := w.offsetData
          size := (compressPage i.libs i.flagCompress i.pageSize (i.page pfn)).2.length
          flags := (compressPage i.libs i.flagCompress i.pageSize (i.page pfn)).1 } := by
      rw [pageDesc, if_neg hz, hpage]
    rw [hpd] at hdesc
    rw [hpage] at hdata
    obtain ⟨p, s, d⟩ := writeKdumpPage_true hdry _ _ (w := { w with offsetData := w.offsetData +
      (compressPage i.libs i.flagCompress i.pageSize (i.page pfn)).2.length }) h.areas (by omega) hrun
    refine ⟨⟨?_, ?_⟩, ⟨s.keeps, s.offsetBitmap1⟩⟩
    · rw [hdesc, hdata, ← List.append_assoc]
      exact p
    · rw [d, hdata, List.length_append, ← Nat.add_assoc, ← h.offsetData]

/-- **The pages of a cycle.** -/
theorem writePages_true (hdry : i.opts.flagDryRun = false) : ∀ (m : List Nat) {l : List Nat}
    {w w' : Writer}, Held i base off l w → base + sizeofPageDesc * (l ++ m).length ≤ off →
    tryEach (writePage i i.pdZero) m w = (true, w') →
    Held i base off (l ++ m) w' ∧ Stepped base w w'
  | [], l, w, w', h, _, hrun => by
    cases hrun
    rw [List.append_nil]
    exact ⟨h, .refl _ _, rfl⟩
  | pfn :: m, l, w, w', h, hroom, hrun => by
    rw [tryEach] at hrun
    split at hrun
    case h_1 => cases hrun
    case h_2 w1 e1 =>
      have hle : (l.length + 1) ≤ (l ++ pfn :: m).length := by
        simp only [List.length_append, List.length_cons]
        omega
      have hmul := Nat.mul_le_mul_left sizeofPageDesc hle
      obtain ⟨h1, s1⟩ := writePage_true hdry h (by omega) e1
      rw [List.append_cons] at hroom ⊢
      obtain ⟨h2, s2⟩ := writePages_true hdry m h1 hroom hrun
      exact ⟨h2, s1.keeps.trans s2.keeps, s2.offsetBitmap1.trans s1.offsetBitmap1⟩

/-! ## The headers and the bits -/

/-- Fixed writes that all return TRUE. -/
theorem writeAll_true {c : Opts} (hdry : c.flagDryRun = false) : ∀ (l : List (Nat × List UInt8))
    {o o' : Out}, writeAll c l o = (true, o') →
    o'.file = l.foldl (fun f w => f.pwrite w.1 w.2) o.file
  | [], _, _, h => by
    cases h
    rfl
  | x :: l, o, o', h => by
    rw [writeAll, tryEach] at h
    split at h
    case h_1 => cases h
    case h_2 o1 e1 =>
      rw [writeAll_true hdry l h, writeBuffer_true hdry e1]
      rfl

theorem writeKdumpHeader_true (hdry : i.opts.flagDryRun = false)
    (h : writeKdumpHeader i o = (true, o')) : Headers i o'.file := by
  have h2 := i.le_pageSize
  have e1 : sizeofDiskDumpHeader = 464 := rfl
  have l1 := DiskDumpHeader.length_encode i.opts.bigendian i.dumpHeader
  have l2 := KdumpSubHeader.length_encode i.opts.bigendian i.subHeader
  have hoff : i.offsetNote = i.pageSize + sizeofKdumpSubHeader := rfl
  have hold1 : Holds (o.file.pwrite 0 (i.dumpHeader.encode i.opts.bigendian)) 0
      (i.dumpHeader.encode i.opts.bigendian) := holds_pwrite_self _ _ _
  by_cases hnote : i.note = []
  · rw [writeKdumpHeader, if_pos hnote] at h
    have hfile := writeAll_true hdry _ h
    simp only [List.cons_append, List.nil_append, List.foldl_cons, List.foldl_nil] at hfile
    refine ⟨?_, ?_, ?_⟩
    · rw [hfile]
      exact hold1.pwrite_of_disjoint (.inl (by omega))
    · rw [hfile]
      exact holds_pwrite_self _ _ _
    · rw [hnote]
      exact holds_nil _ _
  · rw [writeKdumpHeader, if_neg hnote] at h
    have hfile := writeAll_true hdry _ h
    simp only [List.cons_append, List.nil_append, List.foldl_cons, List.foldl_nil] at hfile
    refine ⟨?_, ?_, ?_⟩
    · rw [hfile]
      exact (hold1.pwrite_of_disjoint (.inl (by omega))).pwrite_of_disjoint (.inl (by omega))
    · rw [hfile]
      exact holds_pwrite_self _ _ _
    · rw [hfile]
      exact Holds.pwrite_of_disjoint (holds_pwrite_self _ _ _) (.inr (by omega))

theorem writeBits_true (hdry : i.opts.flagDryRun = false) (hf : Fits i) (bit : Nat → Bool)
    {a offset : Nat} (h : writeBits i bit (i.cycleAt a) offset o = (true, o')) :
    o'.file = o.file.pwrite offset (bitmapBytes bit a ((i.cycleAt a).endPfn - a)) := by
  unfold writeBits at h
  rw [increment_cycleAt hf a, if_neg (by omega), Int.toNat_natCast, List.take_of_length_le] at h
  · exact writeBuffer_true hdry h
  · exact Nat.le_of_eq (length_bitmapBytes _ _ _)

theorem writeZeroPage_true (hdry : i.opts.flagDryRun = false)
    (h : writeZeroPage i (initialWriter i o) = (true, w)) :
    Held i i.dumpHeader.offsetDesc i.offsetPages [] w ∧
      Stepped i.dumpHeader.offsetDesc (initialWriter i o) w := by
  have hp : (initialWriter i o).Areas i.dumpHeader.offsetDesc i.offsetPages [] [] :=
    ⟨cacheInv_init _ rfl _, cacheInv_init _ rfl _, rfl, rfl, by
      unfold Info.offsetPages
      rw [List.length_nil]
      omega⟩
  unfold writeZeroPage at h
  cases hz : i.excludeZero with
  | false =>
    have hnil : zeroStream i = [] := by simp [zeroStream, hz]
    rw [hz, if_neg (by decide)] at h
    cases h
    exact ⟨⟨by rw [hnil]; exact hp, by rw [hnil]; rfl⟩, .refl _ _, rfl⟩
  | true =>
    have hrep : zeroStream i = List.replicate i.pageSize 0 := by simp [zeroStream, hz]
    obtain ⟨kept, part, t1⟩ :=
      writeCache_try hdry hp.dataFd (List.replicate i.pageSize 0) (initialWriter i o).out
    obtain ⟨p1, k1⟩ := Areas.tryData hp t1
    rw [hz, if_pos rfl] at h
    obtain ⟨-, rfl⟩ := Prod.mk.inj h
    refine ⟨⟨?_, ?_⟩, ⟨k1, rfl⟩⟩
    · have hdata : zeroStream i ++ dataStream i [] = [] ++ List.replicate i.pageSize 0 := by
        simp [hrep, dataStream]
      rw [hdata]
      exact p1
    · rw [hrep, List.length_replicate]
      rfl

theorem writeBitmap1_true (hdry : i.opts.flagDryRun = false) (hf : Fits i)
    {cdTable cdData : CacheData} (hp : Output.Areas base off table data cdTable cdData o.file)
    (hbase : i.dumpHeader.offsetBitmap + divideup i.maxMapnr 8 ≤ base)
    (h : tryEach (writeKdumpBitmap1Buffer i i.dumpHeader.offsetBitmap) i.cycles o = (true, o')) :
    Output.Areas base off table data cdTable cdData o'.file ∧
      Keeps i.dumpHeader.offsetBitmap o.file o'.file ∧
      Holds o'.file i.dumpHeader.offsetBitmap (bitmapBytes i.bitmap1 0 i.maxMapnr) := by
  refine PfnCycle.forEachCycle_true i.pfnCyclic_pos
    (P := fun a o' => Output.Areas base off table data cdTable cdData o'.file ∧
      Keeps i.dumpHeader.offsetBitmap o.file o'.file ∧
      Holds o'.file i.dumpHeader.offsetBitmap (bitmapBytes i.bitmap1 0 a)) ?_
    ⟨hp, .refl _ _, holds_nil _ _⟩ h
  intro a o1 o2 ha hd hP hw
  obtain ⟨h1, h2, h3⟩ := hP
  obtain ⟨hle, hend, h8, hpos, hdiv⟩ := cycleAt_facts ha hd
  have hfile : o2.file = o1.file.pwrite
      (i.dumpHeader.offsetBitmap + i.bufsizeCyclic * (a / i.pfnCyclic))
      (bitmapBytes i.bitmap1 a ((i.cycleAt a).endPfn - a)) := writeBits_true hdry hf i.bitmap1 hw
  have hlen := congrArg List.length (bitmapBytes_cycleAt i.bitmap1 hle h8)
  simp only [List.length_append, length_bitmapBytes] at hlen
  have hmono := divideup_mono (z := 8) hend
  refine ⟨?_, ?_, ?_⟩
  · rw [hfile]
    refine h1.pwrite ?_
    rw [length_bitmapBytes]
    omega
  · rw [hfile]
    exact h2.trans (keeps_pwrite _ _ (by omega))
  · show Holds o2.file i.dumpHeader.offsetBitmap (bitmapBytes i.bitmap1 0 (i.cycleAt a).endPfn)
    rw [bitmapBytes_cycleAt i.bitmap1 hle h8, hfile, hpos, ← hdiv, ← length_bitmapBytes i.bitmap1 0 a]
    exact h3.pwrite_append

/-! ## The cycles -/

/-- The state at the start of the cycle at `a`, as `AtCycle`, whatever happened to the writes. -/
structure HeldAt (i : Info) (bm half desc : Nat) (f0 : ByteFile) (a : Nat) (w : Writer) : Prop where
  held : Held i desc (desc + sizeofPageDesc * i.numDumpable) (ownPages i a) w
  keeps : Keeps (bm + half) f0 w.out.file
  bitmap2 : Holds w.out.file (bm + half) (bitmapBytes i.bitmap2 0 a)
  offsetBitmap1 : w.offsetBitmap1 = bm + divideup a 8

theorem writeCycle_true (hdry : i.opts.flagDryRun = false) (hf : Fits i)
    (hnum : i.numDumpable = (dumpable i).length) {bm half desc : Nat} (hhalf : i.lenBitmap / 2 = half)
    (hle : divideup i.maxMapnr 8 ≤ half) (hdesc : bm + half + half = desc) {f0 : ByteFile} {a : Nat}
    (ha : a < i.maxMapnr) (hd : i.pfnCyclic ∣ a) (h : HeldAt i bm half desc f0 a w)
    (hrun : writeCycle i (i.cycleAt a) w = (true, w')) :
    HeldAt i bm half desc f0 (i.cycleAt a).endPfn w' := by
  obtain ⟨hae, hend, h8, -, hdiv⟩ := cycleAt_facts ha hd
  have hbytes := bitmapBytes_cycleAt i.bitmap2 hae h8
  have hlen := congrArg List.length hbytes
  have hmono : divideup (i.cycleAt a).endPfn 8 ≤ divideup i.maxMapnr 8 := divideup_mono hend
  have hinc := increment_cycleAt hf a
  have hroom : desc + sizeofPageDesc * (ownPages i a ++
      (splitRange i (i.cycleAt a)).filter i.bitmap2).length ≤
      desc + sizeofPageDesc * i.numDumpable := by
    rw [show i.cycleAt a = ⟨a, (i.cycleAt a).endPfn⟩ from rfl, ← ownPages_append i hae, hnum]
    exact Nat.add_le_add_left (Nat.mul_le_mul_left _ (length_ownPages_le i hend)) _
  have hpages := ownPages_append i hae
  rw [show (⟨a, (i.cycleAt a).endPfn⟩ : PfnCycle) = i.cycleAt a from rfl] at hpages
  unfold writeCycle writeKdumpBitmap2Buffer at hrun
  rw [hhalf] at hrun
  split at hrun
  case h_1 => cases hrun
  case h_2 w1 e1 =>
    split at e1
    case h_1 => cases e1
    case h_2 o1 hw =>
      cases e1
      have hfile := writeBits_true hdry hf i.bitmap2 hw
      have hoff := h.offsetBitmap1
      simp only [List.length_append, length_bitmapBytes] at hlen
      generalize i.cycleAt a = cycle at *
      have hheld : Held i desc (desc + sizeofPageDesc * i.numDumpable) (ownPages i a)
          { w with out := o1, offsetBitmap1 := w.offsetBitmap1 + (increment cycle).toNat } := by
        refine ⟨?_, h.held.offsetData⟩
        unfold Writer.Areas
        dsimp only
        rw [hfile]
        refine Areas.pwrite h.held.areas ?_
        rw [length_bitmapBytes]
        omega
      obtain ⟨hs, hst⟩ := writePages_true hdry _ hheld hroom hrun
      have hk := hst.keeps
      refine ⟨?_, ?_, ?_, ?_⟩
      · rw [hpages]
        exact hs
      · have h1 : Keeps (bm + half) w.out.file o1.file := by
          rw [hfile]
          exact keeps_pwrite _ _ (by omega)
        exact (h.keeps.trans h1).trans (hk.mono (by omega))
      · have h1 : Holds o1.file (bm + half) (bitmapBytes i.bitmap2 0 cycle.endPfn) := by
          rw [hbytes, hfile, show w.offsetBitmap1 + half =
            bm + half + (bitmapBytes i.bitmap2 0 a).length by rw [length_bitmapBytes]; omega]
          exact h.bitmap2.pwrite_append
        exact h1.keeps hk (by rw [length_bitmapBytes]; omega)
      · rw [hst.offsetBitmap1]
        dsimp only
        rw [hinc, Int.toNat_natCast, hoff]
        omega

theorem writeRemainder_true (hdry : i.opts.flagDryRun = false) (h : w.Areas base off table data)
    (hrun : writeRemainder i w = (true, w')) :
    Holds w'.out.file base table ∧ Holds w'.out.file off data ∧ Keeps base w.out.file w'.out.file := by
  unfold writeRemainder at hrun
  split at hrun
  case h_1 => cases hrun
  case h_2 cd1 o1 e1 =>
    obtain ⟨hb1, kept, t1⟩ := writeCacheBufsz_true hdry h.dataFd e1
    obtain ⟨p1, k1⟩ := Output.Areas.tryData h t1
    cases e2 : writeCacheBufsz i.opts w.cdHeader o1 with
    | mk ok r =>
      obtain ⟨cd2, o2⟩ := r
      rw [e2] at hrun
      cases hrun
      obtain ⟨hb2, kept', t2⟩ := writeCacheBufsz_true hdry p1.tableFd e2
      obtain ⟨p2, k2⟩ := p1.tryTable t2 (by simpa using p1.room)
      rw [List.append_nil, List.append_nil] at p2
      exact ⟨(p2.tableInv.flushed hb2).1, (p2.dataInv.flushed hb1).1, k1.trans k2⟩

/-- **TRUE means complete**, whatever the calls of `write(2)` do. -/
theorem written_of_true (hdry : i.opts.flagDryRun = false) (hf : Fits i)
    (hnum : i.numDumpable = (dumpable i).length) (h : writeoutDumpfile i o = (true, o')) :
    Written i o'.file := by
  unfold writeoutDumpfile at h
  split at h
  case h_1 => cases h
  case h_2 o1 e1 =>
    have hh := writeKdumpHeader_true hdry e1
    unfold writeKdumpPagesAndBitmapCyclic at h
    split at h
    case h_1 => cases h
    case h_2 w2 e2 =>
      obtain ⟨s2, st2⟩ := writeZeroPage_true hdry e2
      have hb1 : w2.offsetBitmap1 = i.dumpHeader.offsetBitmap := st2.offsetBitmap1
      obtain ⟨half, hhalf⟩ : ∃ half, i.lenBitmap / 2 = half := ⟨_, rfl⟩
      have hle : divideup i.maxMapnr 8 ≤ half := hhalf ▸ divideup_le_half i
      have hdesc : i.dumpHeader.offsetBitmap + half + half = i.dumpHeader.offsetDesc := by
        rw [offsetDesc_eq hf.toPlaces, Nat.add_assoc, ← hhalf, ← lenBitmap_eq]
      have hk2 := st2.keeps
      split at h
      case h_1 => cases h
      case h_2 o3 e3 =>
        rw [hb1] at e3
        obtain ⟨p3, k3, hbm1⟩ := writeBitmap1_true hdry hf s2.areas (by
          rw [← hdesc]
          exact Nat.le_trans (Nat.add_le_add_left hle _) (Nat.le_add_right _ _)) e3
        split at h
        case h_1 => cases h
        case h_2 w4 e4 =>
          have hstart : HeldAt i i.dumpHeader.offsetBitmap half i.dumpHeader.offsetDesc o3.file 0
              { w2 with out := o3 } := ⟨⟨p3, s2.offsetData⟩, .refl _ _, holds_nil _ _, hb1⟩
          have h4 := PfnCycle.forEachCycle_true
            (P := HeldAt i i.dumpHeader.offsetBitmap half i.dumpHeader.offsetDesc o3.file)
            i.pfnCyclic_pos
            (fun a w w' ha hd h hs => writeCycle_true hdry hf hnum hhalf hle hdesc ha hd h hs)
            hstart e4
          have hk4 := h4.keeps
          have hbm2 := h4.bitmap2
          cases e5 : writeRemainder i w4 with
          | mk ok w5 =>
            rw [e5] at h
            cases h
            obtain ⟨htable, hdata, k5⟩ := writeRemainder_true hdry h4.held.areas e5
            have hlen1 := length_bitmapBytes i.bitmap1 0 i.maxMapnr
            have hlen2 := length_bitmapBytes i.bitmap2 0 i.maxMapnr
            refine ⟨hh.keeps hf.toPlaces ?_, ?_, ?_, htable, hdata⟩
            · generalize i.dumpHeader.offsetBitmap = bm at *
              generalize i.dumpHeader.offsetDesc = desc at *
              exact (hk2.mono (by omega)).trans
                (k3.trans ((hk4.mono (by omega)).trans (k5.mono (by omega))))
            · generalize i.dumpHeader.offsetBitmap = bm at *
              generalize i.dumpHeader.offsetDesc = desc at *
              exact (hbm1.keeps hk4 (by omega)).keeps k5 (by omega)
            · rw [hhalf]
              generalize i.dumpHeader.offsetBitmap = bm at *
              generalize i.dumpHeader.offsetDesc = desc at *
              exact hbm2.keeps k5 (by omega)

/-- The device is full when page 5 leaves its cache, and is not any more when the rest is written. -/
def fullOnce : List WriteRet :=
  List.replicate 3 (.wrote 4096) ++ [.wrote 1, .eintr, .wrote 1, .wrote 1, .wrote 24, .enospc]

end Kdump
