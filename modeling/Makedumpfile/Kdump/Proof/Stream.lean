import Makedumpfile.Output.Pair
import Makedumpfile.Kdump.Read

/-!
# What the page writer writes

The descriptors and the data of the pages as streams (`descStream`, `dataStream`). The page loop
appends a page's descriptor to the one and its data to the other, whichever buffer is flushed when
(`Streams`, kept by `writePage_ok`), and does not touch the file before the descriptors.
-/

namespace Kdump

open Lib Output ByteFile

variable (i : Info)

theorem Info.pageSize_pos : 0 < i.pageSize := Nat.two_pow_pos _

/-! ## The streams -/

/-- The page is written as the zero page. -/
def isZero (pfn : Nat) : Bool := i.excludeZero && isZeroPage i.pageSize (i.page pfn)

def pageData (pfn : Nat) : List UInt8 :=
  if isZero i pfn then [] else (compressPage i.libs i.flagCompress i.pageSize (i.page pfn)).2

/-- The descriptor of a page whose data goes to `off`. -/
def pageDesc (off pfn : Nat) : PageDesc :=
  if isZero i pfn then i.pdZero
  else
    { offset := off
      size := (pageData i pfn).length
      flags := (compressPage i.libs i.flagCompress i.pageSize (i.page pfn)).1 }

def dataStream (l : List Nat) : List UInt8 := l.flatMap (pageData i)

def descs : Nat → List Nat → List PageDesc
  | _, [] => []
  | off, pfn :: l => pageDesc i off pfn :: descs (off + (pageData i pfn).length) l

def descStream (off : Nat) (l : List Nat) : List UInt8 :=
  (descs i off l).flatMap (·.encode i.opts.bigendian)

/-- The zero-filled page in front of the data. -/
def zeroStream : List UInt8 := if i.excludeZero then List.replicate i.pageSize 0 else []

theorem dataStream_append (l m : List Nat) :
    dataStream i (l ++ m) = dataStream i l ++ dataStream i m := List.flatMap_append

theorem descs_append (l m : List Nat) (off : Nat) :
    descs i off (l ++ m) = descs i off l ++ descs i (off + (dataStream i l).length) m := by
  induction l generalizing off with
  | nil => rfl
  | cons pfn l ih =>
    rw [List.cons_append, descs, ih, descs, List.cons_append]
    congr 3
    rw [dataStream, dataStream, List.flatMap_cons, List.length_append, Nat.add_assoc]

theorem length_descs (l : List Nat) (off : Nat) : (descs i off l).length = l.length := by
  induction l generalizing off with
  | nil => rfl
  | cons pfn l ih => rw [descs, List.length_cons, List.length_cons, ih]

theorem length_flatMap_encode (be : Bool) (l : List PageDesc) :
    (l.flatMap (·.encode be)).length = sizeofPageDesc * l.length := by
  induction l with
  | nil => rfl
  | cons pd l ih =>
    rw [List.flatMap_cons, List.length_append, ih, PageDesc.length_encode, List.length_cons,
      Nat.mul_succ, Nat.add_comm]

theorem length_descStream (off : Nat) (l : List Nat) :
    (descStream i off l).length = sizeofPageDesc * l.length := by
  rw [descStream, length_flatMap_encode, length_descs]

/-! ## One page -/

variable {i}

/-- The two caches of the writer. -/
def Writer.Pair (w : Writer) (c : Opts) (base off : Nat) (table data : List UInt8) : Prop :=
  Output.Pair c base off table data w.cdHeader w.cdPage w.out

theorem writeCdBuf_ok {c : Opts} {o : Out} (cd : CacheData) (hn : NoFail c o)
    (hfd : cd.fd = .file) : ∃ o', writeCdBuf c cd o = (true, o') ∧
      CacheStep c cd o [] { cd with buf := [], offset := cd.offset + cd.buf.length } o' cd.buf := by
  unfold writeCdBuf
  split
  · rename_i hb
    exact ⟨o, rfl, ⟨by simp [hb], rfl, by simp, rfl, rfl, hn, rfl⟩⟩
  · obtain ⟨o', h, hf, hs, hn'⟩ := writeBuffer_file hn cd.offset cd.buf
    rw [hfd, h]
    exact ⟨o', rfl, ⟨hf, rfl, by simp, hfd.symm, rfl, hn', hs⟩⟩

/-- A step of the page loop succeeded, and wrote behind `base` only. -/
structure Stepped (base : Nat) (w w' : Writer) : Prop where
  keeps : Keeps base w.out.file w'.out.file
  offsetBitmap1 : w'.offsetBitmap1 = w.offsetBitmap1

theorem flushBoth_ok {base off : Nat} {table data : List UInt8} {w : Writer}
    (h : w.Pair i.opts base off table data) : ∃ w', flushBoth i w = (true, w') ∧
      w'.Pair i.opts base off table data ∧ Stepped base w w' ∧ w'.offsetData = w.offsetData := by
  obtain ⟨o1, e1, s1⟩ := writeCdBuf_ok w.cdHeader h.noFail h.tableFd
  obtain ⟨p1, k1⟩ := h.stepTable s1 (by simpa using h.room)
  obtain ⟨o2, e2, s2⟩ := writeCdBuf_ok w.cdPage s1.noFail h.dataFd
  obtain ⟨p2, k2⟩ := p1.stepData s2
  rw [List.append_nil, List.append_nil] at p2
  unfold flushBoth
  rw [e1]
  dsimp only
  rw [e2]
  exact ⟨_, rfl, p2, ⟨k1.trans k2, rfl⟩, rfl⟩

theorem writeKdumpPage_ok {base off : Nat} {table data : List UInt8} {w : Writer} (pd : PageDesc)
    (page : List UInt8) (h : w.Pair i.opts base off table data)
    (hroom : base + table.length + sizeofPageDesc ≤ off) :
    ∃ w', writeKdumpPage i pd page w = (true, w') ∧
      w'.Pair i.opts base off (table ++ pd.encode i.opts.bigendian) (data ++ page) ∧
      Stepped base w w' ∧ w'.offsetData = w.offsetData := by
  obtain ⟨w1, e1, p1, s1, d1⟩ : ∃ w1, (if w.cdHeader.cacheSize ≤
      w.cdHeader.buf.length + sizeofPageDesc ∨ w.cdPage.cacheSize ≤ w.cdPage.buf.length + pd.size
      then flushBoth i w else (true, w)) = (true, w1) ∧ w1.Pair i.opts base off table data ∧
      Stepped base w w1 ∧ w1.offsetData = w.offsetData := by
    split
    · exact flushBoth_ok h
    · exact ⟨w, rfl, h, ⟨.refl _ _, rfl⟩, rfl⟩
  obtain ⟨cd2, o2, ch2, e2, s2⟩ :=
    writeCache_ok w1.cdHeader p1.noFail p1.tableFd (pd.encode i.opts.bigendian)
  obtain ⟨p2, k2⟩ := p1.stepTable s2 (by simp only [List.length_append, PageDesc.length_encode]; omega)
  obtain ⟨cd3, o3, ch3, e3, s3⟩ := writeCache_ok w1.cdPage p2.noFail p2.dataFd page
  obtain ⟨p3, k3⟩ := p2.stepData s3
  unfold writeKdumpPage
  dsimp only
  rw [e1]
  dsimp only
  rw [e2]
  dsimp only
  rw [e3]
  exact ⟨_, rfl, p3, ⟨s1.keeps.trans (k2.trans k3), s1.offsetBitmap1⟩, d1⟩

/-- The state after the pages `l`. -/
structure Streams (i : Info) (base off : Nat) (l : List Nat) (w : Writer) : Prop where
  pair : w.Pair i.opts base off (descStream i (off + (zeroStream i).length) l)
    (zeroStream i ++ dataStream i l)
  offsetData : w.offsetData = off + (zeroStream i).length + (dataStream i l).length

/-- **One page** is appended to both streams. -/
theorem writePage_ok {base off : Nat} {l : List Nat} {w : Writer} (pfn : Nat)
    (h : Streams i base off l w) (hroom : base + sizeofPageDesc * (l.length + 1) ≤ off) :
    ∃ w', writePage i i.pdZero pfn w = (true, w') ∧ Streams i base off (l ++ [pfn]) w' ∧
      Stepped base w w' := by
  have hlen := length_descStream i (off + (zeroStream i).length) l
  have hdesc : descStream i (off + (zeroStream i).length) (l ++ [pfn]) =
      descStream i (off + (zeroStream i).length) l ++
        (pageDesc i w.offsetData pfn).encode i.opts.bigendian := by
    unfold descStream
    rw [descs_append, List.flatMap_append, h.offsetData]
    simp [descs]
  have hdata : dataStream i (l ++ [pfn]) = dataStream i l ++ pageData i pfn := by
    rw [dataStream_append]
    simp [dataStream]
  rw [Nat.mul_succ] at hroom
  unfold writePage
  by_cases hz : isZero i pfn = true
  · have hz' : i.excludeZero = true ∧ isZeroPage i.pageSize (i.page pfn) = true := by
      simpa [isZero] using hz
    rw [if_pos hz']
    have hpd : pageDesc i w.offsetData pfn = i.pdZero := by rw [pageDesc, if_pos hz]
    have hnil : pageData i pfn = [] := by rw [pageData, if_pos hz]
    rw [hpd] at hdesc
    rw [hnil, List.append_nil] at hdata
    obtain ⟨cd1, o1, ch1, e1, s1⟩ :=
      writeCache_ok w.cdHeader h.pair.noFail h.pair.tableFd (i.pdZero.encode i.opts.bigendian)
    obtain ⟨p1, k1⟩ := h.pair.stepTable s1 (by
      simp only [List.length_append, PageDesc.length_encode]
      omega)
    rw [e1]
    refine ⟨_, rfl, ⟨?_, ?_⟩, ⟨k1, rfl⟩⟩
    · rw [hdesc, hdata]
      exact p1
    · rw [hdata]
      exact h.offsetData
  · have hz' : ¬ (i.excludeZero = true ∧ isZeroPage i.pageSize (i.page pfn) = true) := by
      simpa [isZero] using hz
    rw [if_neg hz']
    have hpage : pageData i pfn = (compressPage i.libs i.flagCompress i.pageSize (i.page pfn)).2 := by
      rw [pageData, if_neg hz]
    have hpd : pageDesc i w.offsetData pfn =
        { offset := w.offsetData
          size := (compressPage i.libs i.flagCompress i.pageSize (i.page pfn)).2.length
          flags := (compressPage i.libs i.flagCompress i.pageSize (i.page pfn)).1 } := by
      rw [pageDesc, if_neg hz, hpage]
    rw [hpd] at hdesc
    rw [hpage] at hdata
    dsimp only
    obtain ⟨w', e, p, s, d⟩ := writeKdumpPage_ok (i := i)
      (w := { w with offsetData := w.offsetData +
        (compressPage i.libs i.flagCompress i.pageSize (i.page pfn)).2.length })
      { offset := w.offsetData
        size := (compressPage i.libs i.flagCompress i.pageSize (i.page pfn)).2.length
        flags := (compressPage i.libs i.flagCompress i.pageSize (i.page pfn)).1 }
      (compressPage i.libs i.flagCompress i.pageSize (i.page pfn)).2 h.pair (by omega)
    refine ⟨w', e, ⟨?_, ?_⟩, ⟨s.keeps, s.offsetBitmap1⟩⟩
    · rw [hdesc, hdata, ← List.append_assoc]
      exact p
    · rw [d, hdata, List.length_append, ← Nat.add_assoc, ← h.offsetData]

/-- **The pages of a cycle.** -/
theorem writePages_ok {base off : Nat} {l m : List Nat} {w : Writer} (h : Streams i base off l w)
    (hroom : base + sizeofPageDesc * (l ++ m).length ≤ off) :
    ∃ w', tryEach (writePage i i.pdZero) m w = (true, w') ∧ Streams i base off (l ++ m) w' ∧
      Stepped base w w' := by
  obtain ⟨w', e, hs, hstep⟩ := @tryEach_ok _ _ (writePage i i.pdZero)
    (fun m w' => Streams i base off (l ++ m) w' ∧ Stepped base w w') m [] w
    (by
      intro m1 pfn r w1 hm hP
      rw [List.nil_append] at hP ⊢
      have hlen : (l ++ m1).length + 1 ≤ (l ++ m).length := by
        rw [hm]
        simp only [List.length_append, List.length_cons]
        omega
      have hmul := Nat.mul_le_mul_left sizeofPageDesc hlen
      obtain ⟨w2, e, hs, hst⟩ := writePage_ok pfn hP.1 (by omega)
      rw [List.append_assoc] at hs
      exact ⟨w2, e, hs, ⟨hP.2.keeps.trans hst.keeps, hst.offsetBitmap1.trans hP.2.offsetBitmap1⟩⟩)
    ⟨by rwa [List.append_nil], .refl _ _, rfl⟩
  exact ⟨w', e, hs, hstep⟩

end Kdump
