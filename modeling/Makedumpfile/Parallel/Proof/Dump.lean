import Makedumpfile.Kdump.Proof.RoundTrip
import Makedumpfile.Parallel.Dump
import Makedumpfile.Parallel.Proof.Live

/-!
# A file written with threads

Whatever the order in which the threads step: when the writer returns TRUE, the file is complete
(`parallel_written`), with the same headers, bitmaps, descriptors and page data as the one of the
loop without threads, and every page reads back (`readDump_parallel`).
-/

namespace Parallel

open Lib Output ByteFile Kdump

variable {D : Type} {i : Info} {numThreads : Nat} {job : Job}

/-! ## What the consumer writes -/

theorem makePage_zero {pfn : Nat} (hz : isZero i pfn = true) : makePage i pfn = none := by
  have hz' : i.excludeZero = true ∧ isZeroPage i.pageSize (i.page pfn) = true := by
    simpa [isZero] using hz
  rw [makePage, if_pos hz']

theorem makePage_data {pfn : Nat} (hz : ¬ isZero i pfn = true) :
    makePage i pfn = some (compressPage i.libs i.flagCompress i.pageSize (i.page pfn)) := by
  have hz' : ¬ (i.excludeZero = true ∧ isZeroPage i.pageSize (i.page pfn) = true) := by
    simpa [isZero] using hz
  rw [makePage, if_neg hz']

/-- **One page** is appended to both streams, as `write_kdump_page` does. -/
theorem consumePage_ok {base off : Nat} {l : List Nat} {w : Writer} (pfn : Nat)
    (h : Streams i base off l w) (hroom : base + sizeofPageDesc * (l.length + 1) ≤ off) :
    ∃ w', consumePage i i.pdZero (makePage i pfn) w = (true, w') ∧
      Streams i base off (l ++ [pfn]) w' ∧ Stepped base w w' := by
  have hlen := length_descStream i (off + (zeroStream i).length) l
  have hdesc : descStream i (off + (zeroStream i).length) (l ++ [pfn]) =
      descStream i (off + (zeroStream i).length) l ++
        (pageDesc i w.offsetData pfn).encode i.opts.bigendian := by
    unfold descStream
    rw [descs_append, List.flatMap_append, h.offsetData]
    simp [descs]
  have hdata : dataStream i (l ++ [pfn]) = dataStream i l ++ pageData i pfn := by
    rw [dataStream_append]
    simp [dataStream]
  rw [Nat.mul_succ] at hroom
  by_cases hz : isZero i pfn = true
  · have hpd : pageDesc i w.offsetData pfn = i.pdZero := by rw [pageDesc, if_pos hz]
    have hnil : pageData i pfn = [] := by rw [pageData, if_pos hz]
    rw [hpd] at hdesc
    rw [hnil, List.append_nil] at hdata
    obtain ⟨cd1, o1, ch1, e1, s1⟩ :=
      writeCache_ok w.cdHeader h.pair.noFail h.pair.tableFd (i.pdZero.encode i.opts.bigendian)
    obtain ⟨p1, k1⟩ := h.pair.stepTable s1 (by
      simp only [List.length_append, PageDesc.length_encode]
      omega)
    rw [makePage_zero hz, consumePage, e1]
    refine ⟨_, rfl, ⟨?_, ?_⟩, ⟨k1, rfl⟩⟩
    · rw [hdesc, hdata]
      exact p1
    · rw [hdata]
      exact h.offsetData
  · have hpage : pageData i pfn = (compressPage i.libs i.flagCompress i.pageSize
      (i.page pfn)).2 := by
      rw [pageData, if_neg hz]
    have hpd : pageDesc i w.offsetData pfn =
        { offset := w.offsetData
          size := (compressPage i.libs i.flagCompress i.pageSize (i.page pfn)).2.length
          flags := (compressPage i.libs i.flagCompress i.pageSize (i.page pfn)).1 } := by
      rw [pageDesc, if_neg hz, hpage]
    rw [hpd] at hdesc
    rw [hpage] at hdata
    rw [makePage_data hz]
    generalize compressPage i.libs i.flagCompress i.pageSize (i.page pfn) = r at *
    obtain ⟨flags, data⟩ := r
    dsimp only at hdesc hdata
    unfold consumePage
    obtain ⟨cd2, o2, ch2, e2, s2⟩ := writeCache_ok w.cdHeader h.pair.noFail h.pair.tableFd
      (PageDesc.encode i.opts.bigendian { offset := w.offsetData, size := data.length, flags })
    obtain ⟨p2, k2⟩ := h.pair.stepTable s2 (by
      simp only [List.length_append, PageDesc.length_encode]
      omega)
    obtain ⟨cd3, o3, ch3, e3, s3⟩ := writeCache_ok w.cdPage p2.noFail p2.dataFd data
    obtain ⟨p3, k3⟩ := p2.stepData s3
    dsimp only
    rw [e2]
    dsimp only
    rw [e3]
    refine ⟨_, rfl, ⟨?_, ?_⟩, ⟨k2.trans k3, rfl⟩⟩
    · rw [hdesc, hdata, ← List.append_assoc]
      exact p3
    · rw [hdata, List.length_append, ← Nat.add_assoc, ← h.offsetData]

theorem tryEach_map {α β σ : Type} (f : β → σ → Bool × σ) (g : α → β) : ∀ (l : List α) (s : σ),
    tryEach f (l.map g) s = tryEach (fun a => f (g a)) l s
  | [], _ => rfl
  | a :: l, s => by
    rw [List.map_cons, tryEach, tryEach]
    cases f (g a) s with
    | mk ok s' =>
      cases ok with
      | false => rfl
      | true => exact tryEach_map f g l s'

/-- **The pages of a cycle.** -/
theorem consumePages_ok {base off : Nat} {l m : List Nat} {w : Writer} (h : Streams i base off l w)
    (hroom : base + sizeofPageDesc * (l ++ m).length ≤ off) :
    ∃ w', tryEach (consumePage i i.pdZero) (m.map (makePage i)) w = (true, w') ∧
      Streams i base off (l ++ m) w' ∧ Stepped base w w' := by
  rw [tryEach_map]
  obtain ⟨w', e, hs, hstep⟩ := @tryEach_ok _ _ (fun pfn => consumePage i i.pdZero (makePage i pfn))
    (fun m w' => Streams i base off (l ++ m) w' ∧ Stepped base w w') m [] w
    (by
      intro m1 pfn r w1 hm hP
      rw [List.nil_append] at hP ⊢
      have hlen : (l ++ m1).length + 1 ≤ (l ++ m).length := by
        rw [hm]
        simp only [List.length_append, List.length_cons]
        omega
      have hmul := Nat.mul_le_mul_left sizeofPageDesc hlen
      obtain ⟨w2, e, hs, hst⟩ := consumePage_ok pfn hP.1 (by omega)
      rw [List.append_assoc] at hs
      exact ⟨w2, e, hs, ⟨hP.2.keeps.trans hst.keeps, hst.offsetBitmap1.trans hP.2.offsetBitmap1⟩⟩)
    ⟨by rwa [List.append_nil], .refl _ _, rfl⟩
  exact ⟨w', e, hs, hstep⟩

/-! ## A cycle -/

/-- **The bits and the pages of a cycle**, when the pages come in their order. -/
theorem cycle_ok (numThreads : Nat) (hf : Fits i) (hnum : i.numDumpable = (dumpable i).length)
    (hsplit : i.flagSplit = false) {bm half desc : Nat} (hhalf : i.lenBitmap / 2 = half)
    (hle : divideup i.maxMapnr 8 ≤ half) (hdesc : bm + half + half = desc) {f0 : ByteFile} {a : Nat}
    {w : Writer} (ha : a < i.maxMapnr) (hd : i.pfnCyclic ∣ a) (h : AtCycle i bm half desc f0 a w) :
    ∃ w1 w', writeKdumpBitmap2Buffer i (i.cycleAt a) w = (true, w1) ∧
      tryEach (consumePage i i.pdZero)
        ((jobOf i numThreads (i.cycleAt a)).dumpablePfns.map (makePage i)) w1 = (true, w') ∧
      AtCycle i bm half desc f0 (i.cycleAt a).endPfn w' := by
  obtain ⟨hae, hend, h8, -, hdiv⟩ := cycleAt_facts ha hd
  have hbytes := bitmapBytes_cycleAt i.bitmap2 hae h8
  have hlen := congrArg List.length hbytes
  have hmono : divideup (i.cycleAt a).endPfn 8 ≤ divideup i.maxMapnr 8 := divideup_mono hend
  have hinc := increment_cycleAt hf a
  have hpages := ownPages_append i hae
  have hsame : (splitRange i ⟨a, (i.cycleAt a).endPfn⟩).filter i.bitmap2 =
      (jobOf i numThreads (i.cycleAt a)).dumpablePfns := by
    unfold splitRange
    rw [hsplit]
    rfl
  rw [hsame] at hpages
  have hroom : desc + sizeofPageDesc *
      (ownPages i a ++ (jobOf i numThreads (i.cycleAt a)).dumpablePfns).length ≤
      desc + sizeofPageDesc * i.numDumpable := by
    rw [← hpages, hnum]
    exact Nat.add_le_add_left (Nat.mul_le_mul_left _ (length_ownPages_le i hend)) _
  -- the bits
  obtain ⟨o1, hw, hfile, hnf⟩ := writeBits_ok h.streams.pair.noFail hf i.bitmap2 a
    (w.offsetBitmap1 + half)
  have hoff := h.offsetBitmap1
  simp only [List.length_append, length_bitmapBytes] at hlen
  unfold writeKdumpBitmap2Buffer
  rw [hhalf, hw]
  generalize i.cycleAt a = cycle at *
  have hpair : Streams i desc (desc + sizeofPageDesc * i.numDumpable) (ownPages i a)
      { w with out := o1, offsetBitmap1 := w.offsetBitmap1 + (increment cycle).toNat } := by
    refine ⟨Pair.pwrite h.streams.pair hnf hfile ?_, h.streams.offsetData⟩
    rw [length_bitmapBytes]
    omega
  -- the pages
  obtain ⟨w', e, hstreams, hst⟩ := consumePages_ok hpair hroom
  have hk := hst.keeps
  refine ⟨_, w', rfl, e, ⟨?_, ?_, ?_, ?_⟩⟩
  · rw [hpages]
    exact hstreams
  · have h1 : Keeps (bm + half) w.out.file o1.file := by
      rw [hfile]
      exact keeps_pwrite _ _ (by omega)
    exact (h.keeps.trans h1).trans (hk.mono (by omega))
  · have h1 : Holds o1.file (bm + half) (bitmapBytes i.bitmap2 0 cycle.endPfn) := by
      rw [hbytes, hfile, show w.offsetBitmap1 + half =
        bm + half + (bitmapBytes i.bitmap2 0 a).length by rw [length_bitmapBytes]; omega]
      exact h.bitmap2.pwrite_append
    exact h1.keeps hk (by rw [length_bitmapBytes]; omega)
  · rw [hst.offsetBitmap1]
    dsimp only
    rw [hinc, Int.toNat_natCast, hoff]
    omega

/-- A cycle at which the writer returns TRUE: its bits, then its pages. -/
theorem writeCycleParallel_ok (hf : Fits i) (hnum : i.numDumpable = (dumpable i).length)
    (hsplit : i.flagSplit = false) (hn : 0 < numThreads) (hbuf : pageDataNum * numThreads ≤ 2 ^ 15)
    {orders : PfnCycle → ParallelWriter → List Choice} {bm half desc : Nat}
    (hhalf : i.lenBitmap / 2 = half) (hle : divideup i.maxMapnr 8 ≤ half)
    (hdesc : bm + half + half = desc) {f0 : ByteFile} {a : Nat} {p p' : ParallelWriter}
    (ha : a < i.maxMapnr) (hd : i.pfnCyclic ∣ a) (h : AtCycle i bm half desc f0 a p.writer)
    (hc : Cleared numThreads p.flags p.rings)
    (hrun : writeCycleParallel i numThreads orders (i.cycleAt a) p = (true, p')) :
    AtCycle i bm half desc f0 (i.cycleAt a).endPfn p'.writer ∧
      Cleared numThreads p'.flags p'.rings := by
  obtain ⟨w1, w', hbits, e, hat⟩ := cycle_ok numThreads hf hnum hsplit hhalf hle hdesc ha hd h
  have hbuffers : (jobOf i numThreads (i.cycleAt a)).numBuffers ≤ 2 ^ 15 := hbuf
  unfold writeCycleParallel at hrun
  rw [hbits] at hrun
  dsimp only at hrun
  unfold writeKdumpPagesParallelCyclic at hrun
  dsimp only at hrun
  split at hrun
  case h_1 => cases hrun
  case h_2 s hs =>
    by_cases hfin : s.consumer = .finished
    · obtain ⟨hwritten, hclear⟩ := written_of_runThreads hn hbuffers hc _ hs hfin
      rw [hwritten, e] at hrun
      obtain ⟨-, rfl⟩ := Prod.mk.inj hrun
      exact ⟨hat, hclear⟩
    · simp [hfin] at hrun

open scoped Classical in
/-- An order in which the threads come to their end, whenever there is one. -/
noncomputable def someOrder (i : Info) (numThreads : Nat) (cycle : PfnCycle) (p : ParallelWriter) :
    List Choice :=
  let job := jobOf i numThreads cycle
  if h : CanFinish (makePage i) job (create job p.flags p.rings p.data) then h.choose else []

theorem writeCycleParallel_some (hf : Fits i) (hnum : i.numDumpable = (dumpable i).length)
    (hsplit : i.flagSplit = false) (hn : 0 < numThreads) (hbuf : pageDataNum * numThreads ≤ 2 ^ 15)
    {bm half desc : Nat} (hhalf : i.lenBitmap / 2 = half) (hle : divideup i.maxMapnr 8 ≤ half)
    (hdesc : bm + half + half = desc) {f0 : ByteFile} {a : Nat} {p : ParallelWriter}
    (ha : a < i.maxMapnr) (hd : i.pfnCyclic ∣ a) (h : AtCycle i bm half desc f0 a p.writer)
    (hc : Cleared numThreads p.flags p.rings) :
    ∃ p', writeCycleParallel i numThreads (someOrder i numThreads) (i.cycleAt a) p = (true, p') ∧
      AtCycle i bm half desc f0 (i.cycleAt a).endPfn p'.writer ∧
      Cleared numThreads p'.flags p'.rings := by
  obtain ⟨w1, w', hbits, e, hat⟩ := cycle_ok numThreads hf hnum hsplit hhalf hle hdesc ha hd h
  have hbuffers : (jobOf i numThreads (i.cycleAt a)).numBuffers ≤ 2 ^ 15 := hbuf
  have hlt : (jobOf i numThreads (i.cycleAt a)).startPfn < (jobOf i numThreads
    (i.cycleAt a)).endPfn := by
    have := i.pfnCyclic_pos
    simp only [jobOf, Info.cycleAt]
    omega
  have hfinish : CanFinish (makePage i) (jobOf i numThreads (i.cycleAt a))
      (create (jobOf i numThreads (i.cycleAt a)) p.flags p.rings p.data) := by
    refine Reach.canFinish _ hn hbuffers (reach_of_run hbuffers hc hlt [] rfl) (fun j _ => ?_) (by simp [create, if_pos hlt])
    simp [create, if_pos hlt]
  obtain ⟨s, hs, hfin⟩ := hfinish.choose_spec
  obtain ⟨hwritten, hclear⟩ := written_of_runThreads hn hbuffers hc _ hs hfin
  unfold writeCycleParallel
  rw [hbits]
  dsimp only
  unfold writeKdumpPagesParallelCyclic someOrder
  dsimp only
  rw [dif_pos hfinish, hs]
  dsimp only
  rw [hwritten, e]
  refine ⟨{ writer := w', flags := s.flags, rings := s.rings, data := fun b => (s.buffers b).data },
    ?_,
    hat, hclear⟩
  rw [hfin]
  rfl

/-! ## The whole file -/

/-- **The file of a dump** that is written with threads, in any order of their steps. -/
theorem parallel_written (hf : Fits i) (hnum : i.numDumpable = (dumpable i).length)
    (hsplit : i.flagSplit = false) (hn : 0 < numThreads) (hbuf : pageDataNum * numThreads ≤ 2 ^ 15)
    {orders : PfnCycle → ParallelWriter → List Choice} {data : Int → PageBytes} {o o' : Out}
    (hno : NoFail i.opts o)
    (hrun : writeoutDumpfileParallel i numThreads orders data o = (true, o')) :
    Written i o'.file := by
  obtain ⟨o1, e1, hh, n1⟩ := writeKdumpHeader_ok hno
  obtain ⟨w2, e2, s2, st2⟩ := writeZeroPage_ok n1
  have hb1 : w2.offsetBitmap1 = i.dumpHeader.offsetBitmap := st2.offsetBitmap1
  obtain ⟨half, hhalf⟩ : ∃ half, i.lenBitmap / 2 = half := ⟨_, rfl⟩
  have hle : divideup i.maxMapnr 8 ≤ half := hhalf ▸ divideup_le_half i
  have hdesc : i.dumpHeader.offsetBitmap + half + half = i.dumpHeader.offsetDesc := by
    rw [offsetDesc_eq hf.toPlaces, Nat.add_assoc, ← hhalf, ← lenBitmap_eq]
  have hk2 := st2.keeps
  obtain ⟨o3, e3, p3, k3, hbm1⟩ := writeBitmap1_ok hf s2.pair (by
    rw [← hdesc]
    exact Nat.le_trans (Nat.add_le_add_left hle _) (Nat.le_add_right _ _))
  rw [← hb1] at e3
  unfold writeoutDumpfileParallel at hrun
  rw [e1] at hrun
  dsimp only at hrun
  unfold writeKdumpPagesAndBitmapParallel at hrun
  rw [e2] at hrun
  dsimp only at hrun
  rw [e3] at hrun
  dsimp only at hrun
  split at hrun
  case h_1 => cases hrun
  case h_2 p4 e4 =>
    have hstart : AtCycle i i.dumpHeader.offsetBitmap half i.dumpHeader.offsetDesc o3.file 0
        { w2 with out := o3 } := ⟨⟨p3, s2.offsetData⟩, .refl _ _, holds_nil _ _, hb1⟩
    have hclear : Cleared numThreads (fun _ _ => {}) (fun _ => 0) :=
      fun _ _ => ⟨show 0 < pageFlagNum by decide, fun _ _ => rfl⟩
    obtain ⟨h4, -⟩ := PfnCycle.forEachCycle_true
      (P := fun a p => AtCycle i i.dumpHeader.offsetBitmap half i.dumpHeader.offsetDesc o3.file a
        p.writer ∧ Cleared numThreads p.flags p.rings) i.pfnCyclic_pos
      (fun a p p' ha hd h hs =>
        writeCycleParallel_ok hf hnum hsplit hn hbuf hhalf hle hdesc ha hd h.1 h.2 hs)
      ⟨hstart, hclear⟩ e4
    -- the remainders
    obtain ⟨cd5, o5, ch5, e5, s5, hb5⟩ :=
      writeCacheBufsz_ok p4.writer.cdPage h4.streams.pair.noFail h4.streams.pair.dataFd
    obtain ⟨p5, k5⟩ := h4.streams.pair.stepData s5
    obtain ⟨cd6, o6, ch6, e6, s6, hb6⟩ := writeCacheBufsz_ok p4.writer.cdHeader p5.noFail p5.tableFd
    obtain ⟨p6, k6⟩ := p5.stepTable s6 (by simpa using p5.room)
    rw [List.append_nil, List.append_nil] at p6
    have k56 := k5.trans k6
    have hk4 := h4.keeps
    have hbm2 := h4.bitmap2
    unfold writeRemainder at hrun
    rw [e5] at hrun
    dsimp only at hrun
    rw [e6] at hrun
    obtain ⟨-, rfl⟩ := Prod.mk.inj hrun
    have htable := (p6.tableInv.flushed hb6).1
    have hdata := (p6.dataInv.flushed hb5).1
    have hlen1 := length_bitmapBytes i.bitmap1 0 i.maxMapnr
    have hlen2 := length_bitmapBytes i.bitmap2 0 i.maxMapnr
    refine ⟨hh.keeps hf.toPlaces ?_, ?_, ?_, htable, hdata⟩
    · generalize i.dumpHeader.offsetBitmap = bm at *
      generalize i.dumpHeader.offsetDesc = desc at *
      exact (hk2.mono (by omega)).trans
        (k3.trans ((hk4.mono (by omega)).trans (k56.mono (by omega))))
    · generalize i.dumpHeader.offsetBitmap = bm at *
      generalize i.dumpHeader.offsetDesc = desc at *
      exact (hbm1.keeps hk4 (by omega)).keeps k56 (by omega)
    · rw [hhalf]
      generalize i.dumpHeader.offsetBitmap = bm at *
      generalize i.dumpHeader.offsetDesc = desc at *
      exact hbm2.keeps k56 (by omega)

/-- In the first cycle the second of two producers is faster; in the second one there is no page. -/
def twoCycles (cycle : PfnCycle) (_ : ParallelWriter) : List Choice :=
  let producer (n k : Nat) : List Choice := List.replicate k (.producer n false)
  let consumer (k : Nat) : List Choice := List.replicate k (.consumer false)
  if cycle.startPfn = 0 then
    producer 0 8 ++ producer 1 13 ++ consumer 6 ++ producer 0 3 ++ consumer 16 ++ producer 0 7 ++
      producer 1 10 ++ consumer 8
  else producer 1 10 ++ producer 0 10 ++ consumer 8

end Parallel
