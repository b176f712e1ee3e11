import Makedumpfile.Split.Reassemble
import Makedumpfile.Output.Pair
import Makedumpfile.Kdump.Proof.RoundTrip

/-!
# Lost pages come back with an offset

In an incomplete dump a page that was lost has a descriptor of zeros. `reassemble_kdump_pages` knows
only two kinds of pages: the zero-filled page, by its offset, and the others, whose offset it replaces
by the place of the copied data. The pages of the parts, one after the other, become the streams
`newDescs` and `newData` (`Copied`, kept by `copyPage_ok`), and every page with data keeps it; but **a
lost page gets an offset that is not zero** (`keeps_lost_iff`).
-/

namespace Split

open Lib ByteFile Kdump Output

/-! ## The streams -/

/-- A descriptor and its data. -/
abbrev OldPage := PageDesc × List UInt8

variable (be : Bool) (z : ZeroPage)

/-- The page is written as the zero page. -/
def isZeroCopy (x : OldPage) : Bool := z.excludeZero && decide (x.1.offset = z.pdZero.offset)

def newData (x : OldPage) : List UInt8 := if isZeroCopy z x then [] else x.2

/-- The new descriptor of a page whose data goes to `off`. -/
def newDesc (off : Nat) (x : OldPage) : PageDesc :=
  if isZeroCopy z x then z.pdZero else { x.1 with offset := off }

def newDescs : Nat → List OldPage → List PageDesc
  | _, [] => []
  | off, x :: l => newDesc z off x :: newDescs (off + (newData z x).length) l

def newDescStream (off : Nat) (l : List OldPage) : List UInt8 :=
  (newDescs z off l).flatMap (·.encode be)

def newDataStream (l : List OldPage) : List UInt8 := l.flatMap (newData z)

/-- The zero-filled page in front of the data. -/
def zeroData : List UInt8 := if z.excludeZero then List.replicate z.pdZero.size 0 else []

variable {be z}

theorem newDescs_append (l m : List OldPage) (off : Nat) :
    newDescs z off (l ++ m) = newDescs z off l ++ newDescs z (off + (newDataStream z l).length) m := by
  induction l generalizing off with
  | nil => rfl
  | cons x l ih =>
    rw [List.cons_append, newDescs, ih, newDescs, List.cons_append]
    congr 3
    rw [newDataStream, newDataStream, List.flatMap_cons, List.length_append, Nat.add_assoc]

theorem length_newDescs (l : List OldPage) (off : Nat) : (newDescs z off l).length = l.length := by
  induction l generalizing off with
  | nil => rfl
  | cons x l ih => rw [newDescs, List.length_cons, List.length_cons, ih]

theorem length_newDescStream (off : Nat) (l : List OldPage) :
    (newDescStream be z off l).length = sizeofPageDesc * l.length := by
  rw [newDescStream, length_flatMap_encode, length_newDescs]

/-! ## One page -/

theorem readOldPage_length {f : ByteFile} {off : Nat} {x : OldPage}
    (h : readOldPage be f off = some x) : x.2.length = x.1.size ∧ x.1.Fits := by
  unfold readOldPage at h
  simp only [Option.bind_eq_bind, Option.bind_eq_some_iff] at h
  obtain ⟨b, hb, -, -, data, hdata, heq⟩ := h
  cases heq
  have hlen : ∀ {o n : Nat} {d : List UInt8}, readAt f o n = some d → d.length = n := by
    intro o n d hd
    unfold readAt at hd
    dsimp only at hd
    split at hd
    · rename_i hl
      cases hd
      exact hl
    · cases hd
  have hlt : ∀ o n : Nat, hostNat be (pread b o n) < 256 ^ n := by
    intro o n
    refine Nat.lt_of_lt_of_le (hostNat_lt be _) (Nat.pow_le_pow_right (by decide) ?_)
    rw [length_pread]
    omega
  exact ⟨hlen hdata, hlt 0 8, hlt 8 4, hlt 12 4, hlt 16 8⟩

/-- The state after the pages `l`. -/
structure Copied (c : Opts) (be : Bool) (z : ZeroPage) (base off : Nat) (l : List OldPage)
    (w : Copier) : Prop where
  pair : Output.Pair c base off (newDescStream be z (off + (zeroData z).length) l)
    (zeroData z ++ newDataStream z l) w.cdPd w.cdData w.out
  offsetDataNew : w.offsetDataNew = off + (zeroData z).length + (newDataStream z l).length

variable {c : Opts} {base off : Nat} {l : List OldPage} {w : Copier}

theorem Copied.desc_snoc (h : Copied c be z base off l w) (x : OldPage) :
    newDescStream be z (off + (zeroData z).length) (l ++ [x]) =
      newDescStream be z (off + (zeroData z).length) l ++
        (newDesc z w.offsetDataNew x).encode be := by
  unfold newDescStream
  rw [newDescs_append, List.flatMap_append, h.offsetDataNew]
  simp [newDescs]

theorem newDataStream_snoc (l : List OldPage) (x : OldPage) :
    newDataStream z (l ++ [x]) = newDataStream z l ++ newData z x := by
  simp [newDataStream]

/-- **One page** is appended to both streams. -/
theorem copyPage_ok {f : ByteFile} {x : OldPage} (h : Copied c be z base off l w)
    (hread : readOldPage be f w.offsetPhOrg = some x)
    (hroom : base + sizeofPageDesc * (l.length + 1) ≤ off) :
    ∃ w', copyPage c be z f w = (true, w') ∧ Copied c be z base off (l ++ [x]) w' ∧
      w'.offsetPhOrg = w.offsetPhOrg + sizeofPageDesc := by
  have hlen := @length_newDescStream be z (off + (zeroData z).length) l
  have hdesc := h.desc_snoc x
  have hdata := @newDataStream_snoc z l x
  obtain ⟨hsize, -⟩ := readOldPage_length hread
  rw [Nat.mul_succ] at hroom
  unfold copyPage
  rw [hread]
  obtain ⟨pd, data⟩ := x
  dsimp only
  by_cases hz : isZeroCopy z (pd, data) = true
  · rw [newDesc, if_pos hz] at hdesc
    rw [newData, if_pos hz, List.append_nil] at hdata
    rw [if_pos (by simpa [isZeroCopy] using hz)]
    obtain ⟨cd1, o1, ch1, e1, s1⟩ :=
      writeCache_ok w.cdPd h.pair.noFail h.pair.tableFd (z.pdZero.encode be)
    obtain ⟨p1, -⟩ := h.pair.stepTable s1 (by
      simp only [List.length_append, PageDesc.length_encode]
      omega)
    rw [e1]
    refine ⟨_, rfl, ⟨?_, ?_⟩, rfl⟩
    · rw [hdesc, hdata]
      exact p1
    · rw [hdata]
      exact h.offsetDataNew
  · rw [newDesc, if_neg hz] at hdesc
    rw [newData, if_neg hz] at hdata
    rw [if_neg (by simpa [isZeroCopy] using hz)]
    obtain ⟨cd1, o1, ch1, e1, s1⟩ := writeCache_ok w.cdPd h.pair.noFail h.pair.tableFd
      ({ pd with offset := w.offsetDataNew }.encode be)
    obtain ⟨p1, -⟩ := h.pair.stepTable s1 (by
      simp only [List.length_append, PageDesc.length_encode]
      omega)
    obtain ⟨cd2, o2, ch2, e2, s2⟩ := writeCache_ok w.cdData p1.noFail p1.dataFd data
    obtain ⟨p2, -⟩ := p1.stepData s2
    rw [e1]
    dsimp only
    rw [e2]
    refine ⟨_, rfl, ⟨?_, ?_⟩, rfl⟩
    · rw [hdesc, hdata, ← List.append_assoc]
      exact p2
    · dsimp only at hsize ⊢
      rw [hdata, List.length_append, h.offsetDataNew, hsize]
      omega

/-! ## One part -/

/-- The page in slot `j` of a part. -/
def oldPage (s : SplitSet) (offsetPh : Nat) (p : SplittingInfo) (j : Nat) : OldPage :=
  ((s.files p.nameDumpfile).bind fun f => readOldPage s.be f (offsetPh + sizeofPageDesc * j)).getD
    ({ offset := 0, size := 0, flags := 0 }, [])

variable {s : SplitSet} {dumpable : Nat → Bool}

/-- All pages of a part. -/
def oldPages (s : SplitSet) (dumpable : Nat → Bool) (offsetPh : Nat) (p : SplittingInfo) :
    List OldPage :=
  (List.range (partPages dumpable p).length).map (oldPage s offsetPh p)

/-- The descriptors and data of the part can be read. -/
def PartReadable (s : SplitSet) (dumpable : Nat → Bool) (offsetPh : Nat) (p : SplittingInfo) :
    Prop :=
  ∃ f, s.files p.nameDumpfile = some f ∧ ∀ j < (partPages dumpable p).length,
    readOldPage s.be f (offsetPh + sizeofPageDesc * j) = some (oldPage s offsetPh p j)

theorem partReadable_of {offsetPh : Nat} {p : SplittingInfo} {f : ByteFile}
    (hf : s.files p.nameDumpfile = some f) (h : ∀ j < (partPages dumpable p).length,
      readOldPage s.be f (offsetPh + sizeofPageDesc * j) ≠ none) :
    PartReadable s dumpable offsetPh p := by
  refine ⟨f, hf, fun j hj => ?_⟩
  obtain ⟨x, hx⟩ := Option.ne_none_iff_exists'.1 (h j hj)
  unfold oldPage
  rw [hf, Option.bind_some, hx]
  rfl

/-- **The pages of a part** are appended. -/
theorem copyPart_ok {p : SplittingInfo} (h : Copied c s.be z base off l w)
    (hp : PartReadable s dumpable base p)
    (hroom : base + sizeofPageDesc * (l ++ oldPages s dumpable base p).length ≤ off) :
    ∃ w', copyPart s c dumpable z base p w = (true, w') ∧
      Copied c s.be z base off (l ++ oldPages s dumpable base p) w' := by
  obtain ⟨f, hf, hread⟩ := hp
  -- after the pages of `m`
  have hloop := @tryEach_ok _ _ (fun _ => copyPage c s.be z f)
    (fun m w' => Copied c s.be z base off
      (l ++ (List.range m.length).map (oldPage s base p)) w' ∧
      w'.offsetPhOrg = base + sizeofPageDesc * m.length)
    (partPages dumpable p) [] { w with offsetPhOrg := base }
    (by
      intro m pfn r w1 hm ⟨h1, h2⟩
      rw [List.nil_append] at h1 h2 ⊢
      have hj : m.length < (partPages dumpable p).length := by
        rw [hm, List.length_append, List.length_cons]
        omega
      have hr := hread m.length hj
      rw [← h2] at hr
      have hlen : (l ++ (List.range m.length).map (oldPage s base p)).length + 1 ≤
          (l ++ oldPages s dumpable base p).length := by
        simp only [oldPages, List.length_append, List.length_map, List.length_range]
        omega
      have hmul := Nat.mul_le_mul_left sizeofPageDesc hlen
      obtain ⟨w2, e2, hc2, ho2⟩ := copyPage_ok h1 hr (by omega)
      refine ⟨w2, e2, ?_, ?_⟩
      · rw [List.length_append, List.length_singleton, List.range_succ, List.map_append,
          ← List.append_assoc]
        exact hc2
      · rw [ho2, h2, List.length_append, List.length_singleton, Nat.mul_succ, Nat.add_assoc])
    ⟨by
      rw [List.length_nil, List.range_zero, List.map_nil, List.append_nil]
      exact ⟨h.pair, h.offsetDataNew⟩, rfl⟩
  obtain ⟨w', e, hc, -⟩ := hloop
  unfold copyPart
  rw [hf]
  exact ⟨w', e, hc⟩

/-- **All parts.** -/
theorem copyParts_ok : ∀ {ps : List SplittingInfo} {l : List OldPage} {w : Copier},
    Copied c s.be z base off l w → (∀ p ∈ ps, PartReadable s dumpable base p) →
    base + sizeofPageDesc * (l ++ ps.flatMap (oldPages s dumpable base)).length ≤ off →
    ∃ w', tryEach (copyPart s c dumpable z base) ps w = (true, w') ∧
      Copied c s.be z base off (l ++ ps.flatMap (oldPages s dumpable base)) w'
  | [], l, w, h, _, _ => ⟨w, rfl, by rwa [List.flatMap_nil, List.append_nil]⟩
  | p :: ps, l, w, h, hps, hroom => by
    rw [List.flatMap_cons, ← List.append_assoc] at hroom ⊢
    have hle : (l ++ oldPages s dumpable base p).length ≤
        (l ++ oldPages s dumpable base p ++ ps.flatMap (oldPages s dumpable base)).length := by
      rw [@List.length_append _ _ (ps.flatMap _)]
      omega
    have hmul := Nat.mul_le_mul_left sizeofPageDesc hle
    obtain ⟨w1, e1, h1⟩ := copyPart_ok h (hps p List.mem_cons_self) (by omega)
    obtain ⟨w2, e2, h2⟩ := copyParts_ok h1 (fun q hq => hps q (List.mem_cons_of_mem _ hq)) hroom
    refine ⟨w2, ?_, h2⟩
    rw [tryEach, e1]
    exact e2

/-! ## The frame of the page loop -/

theorem startCopy_ok (blockOrder : Nat) {o : Out} (hn : NoFail c o) (hle : base ≤ off) :
    ∃ w, startCopy s c blockOrder base off o = (true, w) ∧
      Copied c s.be (zeroPage s off) base off [] w := by
  have hpair : Output.Pair c base off [] []
      { prepareCacheData .file s.pageSize blockOrder with offset := base }
      { prepareCacheData .file s.pageSize blockOrder with offset := off } o :=
    ⟨cacheInv_init _ rfl _, cacheInv_init _ rfl _, rfl, rfl, hn, by simpa using hle⟩
  unfold startCopy
  dsimp only
  by_cases hz : s.dumpLevel.testBit 0 = true
  · have hzero : zeroData (zeroPage s off) = List.replicate s.pageSize 0 := by
      unfold zeroData zeroPage
      rw [if_pos hz]
    rw [if_pos hz]
    obtain ⟨cd1, o1, ch1, e1, s1⟩ := writeCache_ok _ hn hpair.dataFd (List.replicate s.pageSize 0)
    obtain ⟨p1, -⟩ := hpair.stepData s1
    rw [e1]
    refine ⟨_, rfl, ⟨?_, ?_⟩⟩
    · rw [hzero, newDataStream, List.flatMap_nil, List.append_nil]
      exact p1
    · rw [hzero, List.length_replicate]
      rfl
  · have hzero : zeroData (zeroPage s off) = [] := by
      unfold zeroData zeroPage
      rw [if_neg hz]
    rw [if_neg hz]
    refine ⟨_, rfl, ⟨?_, ?_⟩⟩
    · rw [hzero]
      exact hpair
    · rw [hzero]
      rfl

/-- The erase information goes behind the pages, the sub header's update before them. -/
theorem copyErase_ok {cdData : CacheData} {o : Out} {kh : List UInt8} (hn : NoFail c o)
    (hfd : cdData.fd = .file) (hkh : kh.length = sizeofKdumpSubHeader)
    (he : ∀ p ∈ s.parts, readEraseinfo s.files p ≠ none) :
    ∃ o', copyErase s c kh cdData o = (true, o') ∧ ∀ b r,
      s.pageSize + sizeofKdumpSubHeader ≤ b → b + r.length ≤ cdData.offset →
      Holds o.file b r → Holds o'.file b r := by
  obtain ⟨w, e, hw⟩ := @tryEach_ok _ _ (copyErasePart s c)
    (fun _ w => w.1.fd = .file ∧ NoFail c w.2 ∧ cdData.offset ≤ w.1.offset ∧
      Keeps cdData.offset o.file w.2.file) s.parts [] (cdData, o)
    (by
      intro m p r w1 hm ⟨h1, h2, h3, h4⟩
      unfold copyErasePart
      split
      · exact ⟨w1, rfl, h1, h2, h3, h4⟩
      · obtain ⟨b, hb⟩ := Option.ne_none_iff_exists'.1 (he p (by rw [hm]; simp))
        rw [hb]
        obtain ⟨cd2, o2, ch2, e2, s2⟩ := writeCache_ok w1.1 h2 h1 b
        refine ⟨(cd2, o2), e2, s2.fd.trans h1, s2.noFail, ?_, ?_⟩
        · rw [s2.offset]
          omega
        · rw [s2.file]
          exact h4.trans (keeps_pwrite _ _ h3))
    ⟨hfd, hn, Nat.le_refl _, .refl _ _⟩
  obtain ⟨h1, h2, h3, h4⟩ := hw
  unfold copyErase
  dsimp only
  rw [e]
  dsimp only
  split
  · exact ⟨w.2, rfl, fun b r _ hr hold => hold.keeps h4 hr⟩
  · obtain ⟨cd3, o3, ch3, e3, s3, -⟩ := writeCacheBufsz_ok w.1 h2 h1
    rw [e3]
    dsimp only
    obtain ⟨o4, e4, hf4, -, -⟩ := writeBuffer_file s3.noFail s.pageSize
      (pwrite kh 64 (hostBytes s.be 8 cdData.offset ++
        hostBytes s.be 8 (s.parts.map (·.sizeEraseinfo)).sum))
    refine ⟨o4, e4, fun b r hb hr hold => ?_⟩
    have hlen : (pwrite kh 64 (hostBytes s.be 8 cdData.offset ++
        hostBytes s.be 8 (s.parts.map (·.sizeEraseinfo)).sum)).length = sizeofKdumpSubHeader := by
      rw [length_pwrite, hkh]
      simp [sizeofKdumpSubHeader]
    rw [hf4]
    refine Holds.pwrite_of_disjoint ?_ (.inr (by rw [hlen]; exact hb))
    refine hold.keeps (h4.trans ?_) hr
    rw [s3.file]
    exact keeps_pwrite _ _ h3

/-! ## The place of a page -/

/-- The pages of the parts before `p` are the dumpable page frames before it. -/
theorem follow_pages {maxMapnr : Nat} : ∀ {ps : List SplittingInfo} {a : Nat},
    follow maxMapnr a ps = true → (∀ p ∈ ps, p.startPfn ≤ p.endPfn) →
    a ≤ maxMapnr ∧ (ps.flatMap (partPages dumpable)) =
      (List.range' a (maxMapnr - a)).filter dumpable
  | [], a, h, _ => by
    have : a = maxMapnr := by simpa [follow] using h
    subst this
    simp
  | p :: ps, a, h, hle => by
    simp only [follow, Bool.and_eq_true, beq_iff_eq] at h
    obtain ⟨h1, h2⟩ := follow_pages h.2 fun q hq => hle q (List.mem_cons_of_mem _ hq)
    have hp := hle p List.mem_cons_self
    have h0 := h.1
    subst h0
    refine ⟨by omega, ?_⟩
    rw [List.flatMap_cons, h2, partPages, ← List.filter_append]
    congr 1
    rw [show p.endPfn = p.startPfn + (p.endPfn - p.startPfn) by omega, Nat.add_sub_cancel_left,
      List.range'_append_1]
    congr 1
    omega

theorem follow_split {maxMapnr : Nat} : ∀ {ps1 : List SplittingInfo} {p : SplittingInfo}
    {ps2 : List SplittingInfo} {a : Nat}, follow maxMapnr a (ps1 ++ p :: ps2) = true →
    follow p.startPfn a ps1 = true
  | [], p, ps2, a, h => by
    simp only [List.nil_append, follow, Bool.and_eq_true, beq_iff_eq] at h
    simp [follow, h.1]
  | q :: ps1, p, ps2, a, h => by
    simp only [List.cons_append, follow, Bool.and_eq_true, beq_iff_eq] at h ⊢
    exact ⟨h.1, follow_split h.2⟩

theorem length_oldPages (offsetPh : Nat) (p : SplittingInfo) :
    (oldPages s dumpable offsetPh p).length = (partPages dumpable p).length := by
  simp [oldPages]

theorem length_flatMap_oldPages (offsetPh : Nat) (ps : List SplittingInfo) :
    (ps.flatMap (oldPages s dumpable offsetPh)).length =
      (ps.flatMap (partPages dumpable)).length := by
  induction ps with
  | nil => rfl
  | cons p ps ih =>
    rw [List.flatMap_cons, List.flatMap_cons, List.length_append, List.length_append, ih,
      length_oldPages]

/-- The slot of a page in its part, and in the new table. -/
def slotIn (dumpable : Nat → Bool) (start pfn : Nat) : Nat :=
  (List.range' start (pfn - start)).countP dumpable

theorem slotIn_lt {p : SplittingInfo} {pfn : Nat} (h1 : p.startPfn ≤ pfn) (h2 : pfn < p.endPfn)
    (hd : dumpable pfn = true) :
    slotIn dumpable p.startPfn pfn < (partPages dumpable p).length := by
  unfold slotIn partPages
  rw [List.countP_eq_length_filter]
  rw [show p.endPfn - p.startPfn = (pfn - p.startPfn) + (1 + (p.endPfn - pfn - 1)) by omega,
    ← List.range'_append_1, ← List.range'_append_1, List.filter_append, List.filter_append,
    show p.startPfn + (pfn - p.startPfn) = pfn by omega]
  simp [hd]

/-- **The slot** of a page in the new table is that of its part's page. -/
theorem pages_split {maxMapnr : Nat} {ps : List SplittingInfo} (offsetPh : Nat)
    (hf : follow maxMapnr 0 ps = true) (hle : ∀ p ∈ ps, p.startPfn ≤ p.endPfn) {p : SplittingInfo}
    (hp : p ∈ ps) {pfn : Nat} (h1 : p.startPfn ≤ pfn) (h2 : pfn < p.endPfn)
    (hd : dumpable pfn = true) :
    ∃ l1 l2, ps.flatMap (oldPages s dumpable offsetPh) =
      l1 ++ oldPage s offsetPh p (slotIn dumpable p.startPfn pfn) :: l2 ∧
      l1.length = slotIn dumpable 0 pfn := by
  obtain ⟨ps1, ps2, rfl⟩ := List.append_of_mem hp
  have hle1 : ∀ q ∈ ps1, q.startPfn ≤ q.endPfn := fun q hq =>
    hle q (List.mem_append_left _ hq)
  obtain ⟨-, hpages⟩ := @follow_pages dumpable _ _ _ (follow_split hf) hle1
  have hslot := slotIn_lt h1 h2 hd
  obtain ⟨m, hm⟩ : ∃ m, (partPages dumpable p).length =
      slotIn dumpable p.startPfn pfn + (1 + m) :=
    ⟨(partPages dumpable p).length - slotIn dumpable p.startPfn pfn - 1, by omega⟩
  refine ⟨ps1.flatMap (oldPages s dumpable offsetPh) ++
    (List.range (slotIn dumpable p.startPfn pfn)).map (oldPage s offsetPh p),
    (List.range' (slotIn dumpable p.startPfn pfn + 1) m).map (oldPage s offsetPh p) ++
      ps2.flatMap (oldPages s dumpable offsetPh), ?_, ?_⟩
  · rw [List.flatMap_append, List.flatMap_cons, oldPages, hm, List.range_eq_range',
      ← List.range'_append_1, ← List.range'_append_1, List.map_append, List.map_append,
      ← List.range_eq_range']
    simp
  · rw [List.length_append, length_flatMap_oldPages, hpages, List.length_map, List.length_range]
    unfold slotIn
    rw [← List.countP_eq_length_filter, Nat.sub_zero, Nat.sub_zero, ← List.countP_append,
      show pfn = p.startPfn + (pfn - p.startPfn) by omega, Nat.add_sub_cancel_left]
    congr 1
    rw [← List.range'_append_1, Nat.zero_add]

/-! ## The reassembled file -/

/-- The place of the descriptors, without wrap-around. -/
def descPlace (be : Bool) (dh : List UInt8) : Int :=
  (1 + subHdrSize be dh + bitmapBlocks be dh) * blockSize be dh

/-- The place of the data. -/
def dataPlace (s : SplitSet) (dumpable : Nat → Bool) (dh : List UInt8) : Nat :=
  (descPlace s.be dh).toNat + sizeofPageDesc * numDumpable s dumpable

/-- The pages of all parts. -/
def allPages (s : SplitSet) (dumpable : Nat → Bool) (dh : List UInt8) : List OldPage :=
  s.parts.flatMap (oldPages s dumpable (descPlace s.be dh).toNat)

/-- Parts that have everything their headers tell of. The descriptors are below 4 GiB, behind the sub
header, and the new file has a size; a page at the place of the zero-filled page is one. -/
structure PartsOk (s : SplitSet) (dumpable : Nat → Bool) (dh : List UInt8) : Prop where
  header : (s.parts.head?.bind fun p => readDiskDumpHeader s.files p.nameDumpfile) = some dh
  follow : checkSplittingInfo s.maxMapnr s.parts = true
  ordered : ∀ p ∈ s.parts, p.startPfn ≤ p.endPfn
  place : 0 ≤ descPlace s.be dh ∧ descPlace s.be dh < 2 ^ 32
  subHeader : s.pageSize + sizeofKdumpSubHeader ≤ (descPlace s.be dh).toNat
  pageSize_lt : s.pageSize < 2 ^ 32
  readable : ∀ p ∈ s.parts, PartReadable s dumpable (descPlace s.be dh).toNat p
  erase : ∀ p ∈ s.parts, readEraseinfo s.files p ≠ none
  zero : ∀ x ∈ allPages s dumpable dh, isZeroCopy (zeroPage s (dataPlace s dumpable dh)) x = true →
    x.1.size = s.pageSize ∧ x.1.flags = 0 ∧ x.2 = List.replicate s.pageSize 0
  fits : dataPlace s dumpable dh + (zeroData (zeroPage s (dataPlace s dumpable dh))).length +
    (newDataStream (zeroPage s (dataPlace s dumpable dh)) (allPages s dumpable dh)).length < 2 ^ 63

variable {dh : List UInt8}

theorem PartsOk.offsetFirstPh (h : PartsOk s dumpable dh) :
    offsetFirstPh s.be dh = (descPlace s.be dh).toNat := by
  unfold Split.offsetFirstPh u32
  rw [show (1 + subHdrSize s.be dh + bitmapBlocks s.be dh) * blockSize s.be dh =
    descPlace s.be dh from rfl, Int.emod_eq_of_lt h.place.1 h.place.2]

theorem PartsOk.length_allPages (h : PartsOk s dumpable dh) :
    (allPages s dumpable dh).length = numDumpable s dumpable := by
  obtain ⟨-, hpages⟩ := @follow_pages dumpable _ _ _ h.follow h.ordered
  unfold allPages numDumpable
  rw [length_flatMap_oldPages, hpages, Nat.sub_zero, ← List.range_eq_range',
    List.countP_eq_length_filter]

/-- **The new file** has the two streams. -/
theorem reassembleKdumpPages_ok (h : PartsOk s dumpable dh) (blockOrder : Nat) {kh : List UInt8}
    (hkh : kh.length = sizeofKdumpSubHeader) {o : Out} (hn : NoFail c o) :
    ∃ o', reassembleKdumpPages s c dumpable blockOrder kh o = (true, o') ∧
      Holds o'.file (descPlace s.be dh).toNat
        (newDescStream s.be (zeroPage s (dataPlace s dumpable dh)) (dataPlace s dumpable dh +
          (zeroData (zeroPage s (dataPlace s dumpable dh))).length) (allPages s dumpable dh)) ∧
      Holds o'.file (dataPlace s dumpable dh)
        (zeroData (zeroPage s (dataPlace s dumpable dh)) ++
          newDataStream (zeroPage s (dataPlace s dumpable dh)) (allPages s dumpable dh)) := by
  have hplace := h.offsetFirstPh
  have hlen := h.length_allPages
  obtain ⟨w1, e1, h1⟩ := @startCopy_ok c (descPlace s.be dh).toNat (dataPlace s dumpable dh) s
    blockOrder o hn (Nat.le_add_right _ _)
  obtain ⟨w2, e2, h2⟩ := copyParts_ok h1 h.readable (by
    rw [List.nil_append]
    exact Nat.le_of_eq (congrArg _ (congrArg _ hlen)))
  rw [List.nil_append] at h2
  obtain ⟨cd3, o3, ch3, e3, s3, hb3⟩ := writeCacheBufsz_ok w2.cdPd h2.pair.noFail h2.pair.tableFd
  obtain ⟨p3, -⟩ := h2.pair.stepTable s3 (by simpa using h2.pair.room)
  obtain ⟨cd4, o4, ch4, e4, s4, hb4⟩ := writeCacheBufsz_ok w2.cdData p3.noFail p3.dataFd
  obtain ⟨p4, -⟩ := p3.stepData s4
  rw [List.append_nil, List.append_nil] at p4
  obtain ⟨ht, -⟩ := p4.tableInv.flushed hb3
  obtain ⟨hd, hend⟩ := p4.dataInv.flushed hb4
  obtain ⟨o5, e5, hkeep⟩ := copyErase_ok (s := s) s4.noFail p4.dataFd hkh h.erase
  refine ⟨o5, ?_, hkeep _ _ h.subHeader ?_ ht, hkeep _ _ ?_ (Nat.le_of_eq (by rw [hend]; rfl)) hd⟩
  · unfold reassembleKdumpPages
    rw [h.header]
    dsimp only
    rw [hplace, show (descPlace s.be dh).toNat + sizeofPageDesc * numDumpable s dumpable =
      dataPlace s dumpable dh from rfl, e1]
    dsimp only
    rw [e2]
    dsimp only
    rw [e3]
    dsimp only
    rw [e4]
    exact e5
  · have hroom : (newDescStream s.be (zeroPage s (dataPlace s dumpable dh)) (dataPlace s dumpable dh +
        (zeroData (zeroPage s (dataPlace s dumpable dh))).length) (allPages s dumpable dh)).length +
        (descPlace s.be dh).toNat ≤ dataPlace s dumpable dh := by
      rw [length_newDescStream, hlen, Nat.add_comm]
      exact Nat.le_refl _
    rw [hend]
    omega
  · exact Nat.le_trans h.subHeader (Nat.le_add_right _ _)

theorem newDesc_fits (h : PartsOk s dumpable dh) {l1 l2 : List OldPage} {x : OldPage}
    (hl : allPages s dumpable dh = l1 ++ x :: l2) (hx : x.1.Fits) :
    (newDesc (zeroPage s (dataPlace s dumpable dh)) (dataPlace s dumpable dh +
      (zeroData (zeroPage s (dataPlace s dumpable dh))).length +
      (newDataStream (zeroPage s (dataPlace s dumpable dh)) l1).length) x).Fits := by
  have hfits := h.fits
  have hps := h.pageSize_lt
  rw [hl, newDataStream, List.flatMap_append, List.length_append] at hfits
  unfold newDesc
  split
  · refine ⟨?_, hps, Nat.two_pow_pos 32, Nat.two_pow_pos 64⟩
    show dataPlace s dumpable dh < 2 ^ 64
    omega
  · refine ⟨?_, hx.size, hx.flags, hx.pageFlags⟩
    show dataPlace s dumpable dh + (zeroData (zeroPage s (dataPlace s dumpable dh))).length +
      (newDataStream (zeroPage s (dataPlace s dumpable dh)) l1).length < 2 ^ 64
    unfold newDataStream
    omega

/-- The descriptor of zeros. -/
def lostDesc : PageDesc := { offset := 0, size := 0, flags := 0 }

/-- The descriptor in slot `k` of a file's table. -/
def descAt (be : Bool) (f : ByteFile) (base k : Nat) : PageDesc :=
  .decode be (pread f (base + sizeofPageDesc * k) sizeofPageDesc)

theorem descAt_split {f : ByteFile} {l1 l2 : List OldPage} {x : OldPage} {start : Nat}
    (hw : Holds f base (newDescStream be z start (l1 ++ x :: l2)))
    (hfit : (newDesc z (start + (newDataStream z l1).length) x).Fits) :
    descAt be f base l1.length = newDesc z (start + (newDataStream z l1).length) x := by
  have hsplit : newDescStream be z start (l1 ++ x :: l2) = newDescStream be z start l1 ++
      ((newDesc z (start + (newDataStream z l1).length) x).encode be ++
        newDescStream be z (start + (newDataStream z l1).length + (newData z x).length) l2) := by
    unfold newDescStream
    rw [newDescs_append, List.flatMap_append, newDescs, List.flatMap_cons]
  rw [hsplit, holds_append, holds_append, length_newDescStream] at hw
  have hread : pread f (base + sizeofPageDesc * l1.length) sizeofPageDesc =
      (newDesc z (start + (newDataStream z l1).length) x).encode be := by
    have := hw.2.1
    unfold Holds at this
    rwa [PageDesc.length_encode] at this
  unfold descAt
  rw [hread, PageDesc.decode_encode be hfit]

/-- A page with data keeps it. -/
theorem readAt_split {f : ByteFile} {l1 l2 : List OldPage} {x : OldPage}
    (hw : Holds f off (zeroData z ++ newDataStream z (l1 ++ x :: l2)))
    (hzoff : z.pdZero.offset = off) (hlen : x.2.length = x.1.size)
    (hz : isZeroCopy z x = true → x.1.size = z.pdZero.size ∧ x.1.flags = z.pdZero.flags ∧
      x.2 = List.replicate z.pdZero.size 0) :
    (newDesc z (off + (zeroData z).length + (newDataStream z l1).length) x).size = x.1.size ∧
    (newDesc z (off + (zeroData z).length + (newDataStream z l1).length) x).flags = x.1.flags ∧
    readAt f (newDesc z (off + (zeroData z).length + (newDataStream z l1).length) x).offset
      x.1.size = some x.2 := by
  rw [holds_append] at hw
  by_cases hzc : isZeroCopy z x = true
  · obtain ⟨h1, h2, h3⟩ := hz hzc
    have hex : z.excludeZero = true := by
      unfold isZeroCopy at hzc
      rw [Bool.and_eq_true] at hzc
      exact hzc.1
    have hzero := hw.1
    rw [zeroData, if_pos hex] at hzero
    rw [newDesc, if_pos hzc]
    refine ⟨h1.symm, h2.symm, ?_⟩
    rw [hzoff, h3]
    exact readAt_of_holds hzero (by rw [List.length_replicate, h1])
  · have hdata := hw.2
    rw [newDataStream, List.flatMap_append, List.flatMap_cons, holds_append, holds_append] at hdata
    have hown := hdata.2.1
    rw [newData, if_neg hzc] at hown
    rw [newDesc, if_neg hzc]
    exact ⟨rfl, rfl, readAt_of_holds hown hlen⟩

/-- **What is asked of the copy**: it succeeds; a lost page has offset zero again, and every other
dumpable page a descriptor with its size and flags that leads to its data. -/
def KeepsLost (s : SplitSet) (c : Opts) (dumpable : Nat → Bool) (dh : List UInt8)
    (blockOrder : Nat) (kh : List UInt8) (o : Out) : Prop :=
  ∃ o', reassembleKdumpPages s c dumpable blockOrder kh o = (true, o') ∧
    ∀ p ∈ s.parts, ∀ pfn, p.startPfn ≤ pfn → pfn < p.endPfn → dumpable pfn = true →
      let old := oldPage s (descPlace s.be dh).toNat p (slotIn dumpable p.startPfn pfn)
      let new := descAt s.be o'.file (descPlace s.be dh).toNat (slotIn dumpable 0 pfn)
      if old.1 = lostDesc then new.offset = 0
      else new.size = old.1.size ∧ new.flags = old.1.flags ∧
        readAt o'.file new.offset new.size = some old.2

/-- No dumpable page has a descriptor of zeros. -/
def NoneLost (s : SplitSet) (dumpable : Nat → Bool) (dh : List UInt8) : Prop :=
  ∀ p ∈ s.parts, ∀ pfn, p.startPfn ≤ pfn → pfn < p.endPfn → dumpable pfn = true →
    (oldPage s (descPlace s.be dh).toNat p (slotIn dumpable p.startPfn pfn)).1 ≠ lostDesc

/-- The new descriptor of a page. -/
theorem new_descAt (h : PartsOk s dumpable dh) {f : ByteFile}
    (hw : Holds f (descPlace s.be dh).toNat
      (newDescStream s.be (zeroPage s (dataPlace s dumpable dh)) (dataPlace s dumpable dh +
        (zeroData (zeroPage s (dataPlace s dumpable dh))).length) (allPages s dumpable dh)))
    {p : SplittingInfo} (hp : p ∈ s.parts) {pfn : Nat} (h1 : p.startPfn ≤ pfn)
    (h2 : pfn < p.endPfn) (hd : dumpable pfn = true) :
    ∃ l1 l2, allPages s dumpable dh =
        l1 ++ oldPage s (descPlace s.be dh).toNat p (slotIn dumpable p.startPfn pfn) :: l2 ∧
      descAt s.be f (descPlace s.be dh).toNat (slotIn dumpable 0 pfn) =
        newDesc (zeroPage s (dataPlace s dumpable dh)) (dataPlace s dumpable dh +
          (zeroData (zeroPage s (dataPlace s dumpable dh))).length +
          (newDataStream (zeroPage s (dataPlace s dumpable dh)) l1).length)
          (oldPage s (descPlace s.be dh).toNat p (slotIn dumpable p.startPfn pfn)) := by
  obtain ⟨l1, l2, hl, hlen⟩ := @pages_split s dumpable _ _ (descPlace s.be dh).toNat h.follow
    h.ordered p hp pfn h1 h2 hd
  obtain ⟨f', hf', hread⟩ := h.readable p hp
  obtain ⟨-, hx⟩ := readOldPage_length (hread _ (slotIn_lt h1 h2 hd))
  refine ⟨l1, l2, hl, ?_⟩
  rw [← hlen]
  rw [allPages, hl] at hw
  exact descAt_split hw (newDesc_fits h hl hx)

/-- A lost page is no zero-filled page, and its new offset is behind the descriptors. -/
theorem lost_offset (h : PartsOk s dumpable dh) (off : Nat) :
    (newDesc (zeroPage s (dataPlace s dumpable dh))
      (dataPlace s dumpable dh + off) (lostDesc, [])).offset ≠ 0 := by
  have hpos := h.subHeader
  have hle : (descPlace s.be dh).toNat ≤ dataPlace s dumpable dh := Nat.le_add_right _ _
  unfold sizeofKdumpSubHeader at hpos
  unfold newDesc
  split
  · show dataPlace s dumpable dh ≠ 0
    omega
  · show dataPlace s dumpable dh + off ≠ 0
    omega

theorem not_keepsLost (h : PartsOk s dumpable dh) (blockOrder : Nat) {kh : List UInt8}
    (hkh : kh.length = sizeofKdumpSubHeader) {o : Out} (hn : NoFail c o)
    (hk : KeepsLost s c dumpable dh blockOrder kh o) : NoneLost s dumpable dh := by
  intro p hp pfn h1 h2 hd hlost
  obtain ⟨o', he, hall⟩ := hk
  obtain ⟨o2, he2, ht, -⟩ := reassembleKdumpPages_ok h blockOrder hkh hn
  cases he.symm.trans he2
  have hzero := hall p hp pfn h1 h2 hd
  dsimp only at hzero
  rw [if_pos hlost] at hzero
  obtain ⟨l1, l2, hl, hnew⟩ := new_descAt h ht hp h1 h2 hd
  rw [hnew] at hzero
  refine lost_offset h ((zeroData (zeroPage s (dataPlace s dumpable dh))).length +
    (newDataStream (zeroPage s (dataPlace s dumpable dh)) l1).length) ?_
  rw [← hzero, ← Nat.add_assoc]
  -- the new offset depends on the old descriptor alone
  unfold newDesc isZeroCopy
  rw [hlost]

/-- A part with the page frames `[start, stop)` and one page, marked incomplete. -/
def onePagePart (start stop : Nat) (pd : PageDesc) (data : List UInt8) : ByteFile :=
  ({ headerVersion := 6, utsname := .replicate 390 0, timestamp := .replicate 16 0, status := 9
     blockSize := 512, subHdrSize := 1, bitmapBlocks := 2, maxMapnr := 8, nrCpus := 1 :
     Kdump.DiskDumpHeader }).encode false ++ List.replicate 48 0 ++
  ({ physBase := 0, dumpLevel := 30, split := 1, startPfn64 := start, endPfn64 := stop
     maxMapnr64 := 8 : Kdump.KdumpSubHeader }).encode false ++ List.replicate 1432 0 ++
  pd.encode false ++ List.replicate 24 0 ++ data

/-- A page at the place of the data of a file with two pages. -/
def fullPage : OldPage := ({ offset := 2096, size := 512, flags := 0 }, List.replicate 512 7)

def fullPart (start stop : Nat) : ByteFile := onePagePart start stop fullPage.1 fullPage.2

/-- The page is lost. -/
def lostPart : ByteFile := onePagePart 0 4 lostDesc []

/-- Two parts, each with the first of its four page frames. -/
def onePageSet (first : ByteFile) : SplitSet where
  be := false
  files := fun name =>
    if name = "first" then some first
    else if name = "second" then some (fullPart 4 8)
    else none
  parts := [⟨"first", 0, 4, 0, 0⟩, ⟨"second", 4, 8, 0, 0⟩]
  pageSize := 512
  maxMapnr := 8
  dumpLevel := 30

def firstOfFour (pfn : Nat) : Bool := pfn % 4 == 0

theorem fullPart_page (start stop : Nat) (h : start = 0 ∧ stop = 4 ∨ start = 4 ∧ stop = 8) :
    readOldPage false (fullPart start stop) 2048 = some fullPage := by
  obtain ⟨rfl, rfl⟩ | ⟨rfl, rfl⟩ := h
  · decide +kernel
  · decide +kernel

theorem onePageSet_ok {first : ByteFile} {dh : List UInt8}
    (hdh : readDiskDumpHeader (onePageSet first).files "first" = some dh)
    (hplace : descPlace false dh = 2048) {x : OldPage}
    (hx : readOldPage false first 2048 = some x) (hlen : x.2.length ≤ 512) :
    PartsOk (onePageSet first) firstOfFour dh ∧
      oldPage (onePageSet first) 2048 ⟨"first", 0, 4, 0, 0⟩ 0 = x ∧
      oldPage (onePageSet first) 2048 ⟨"second", 4, 8, 0, 0⟩ 0 = fullPage := by
  have hone : oldPage (onePageSet first) 2048 ⟨"first", 0, 4, 0, 0⟩ 0 = x := by
    simp [oldPage, onePageSet, hx]
  have htwo : oldPage (onePageSet first) 2048 ⟨"second", 4, 8, 0, 0⟩ 0 = fullPage := by
    simp [oldPage, onePageSet, fullPart_page 4 8 (.inr ⟨rfl, rfl⟩)]
  have hpages : allPages (onePageSet first) firstOfFour dh = [x, fullPage] := by
    unfold allPages
    rw [show (onePageSet first).be = false from rfl, hplace]
    show [oldPage (onePageSet first) 2048 ⟨"first", 0, 4, 0, 0⟩ 0,
      oldPage (onePageSet first) 2048 ⟨"second", 4, 8, 0, 0⟩ 0] = _
    rw [hone, htwo]
  have hlevel : (onePageSet first).dumpLevel.testBit 0 = false :=
    (by decide : Nat.testBit 30 0 = false)
  have hzero : ∀ off y, isZeroCopy (zeroPage (onePageSet first) off) y = false := by
    intro off y
    simp [isZeroCopy, zeroPage, hlevel]
  refine ⟨?_, hone, htwo⟩
  constructor
  case header => exact hdh
  case follow => rfl
  case ordered => exact (by decide : ∀ p ∈ (onePageSet []).parts, p.startPfn ≤ p.endPfn)
  case place =>
    rw [show (onePageSet first).be = false from rfl, hplace]
    decide
  case subHeader =>
    rw [show (onePageSet first).be = false from rfl, hplace]
    exact (by decide : 512 + sizeofKdumpSubHeader ≤ Int.toNat 2048)
  case pageSize_lt => exact (by decide : 512 < 2 ^ 32)
  case readable =>
    intro p hp
    rw [show (onePageSet first).be = false from rfl, hplace]
    rcases List.mem_pair.1 hp with rfl | rfl
    · refine partReadable_of rfl fun j hj => ?_
      cases Nat.lt_one_iff.1 hj
      exact Option.ne_none_iff_exists'.2 ⟨x, hx⟩
    · refine partReadable_of rfl fun j hj => ?_
      cases Nat.lt_one_iff.1 hj
      exact Option.ne_none_iff_exists'.2 ⟨_, fullPart_page 4 8 (.inr ⟨rfl, rfl⟩)⟩
  case erase =>
    intro p hp
    rcases List.mem_pair.1 hp with rfl | rfl <;> simp [readEraseinfo]
  case zero =>
    intro y _ hy
    rw [hzero] at hy
    cases hy
  case fits =>
    rw [hpages]
    have hdata : (newDataStream (zeroPage (onePageSet first)
        (dataPlace (onePageSet first) firstOfFour dh)) [x, fullPage]).length =
          x.2.length + 512 := by
      simp [newDataStream, newData, hzero, show fullPage.2.length = 512 from List.length_replicate ..]
    have hzd : (zeroData (zeroPage (onePageSet first)
        (dataPlace (onePageSet first) firstOfFour dh))).length = 0 := by
      simp [zeroData, zeroPage, hlevel]
    have hdp : dataPlace (onePageSet first) firstOfFour dh = 2096 := by
      unfold dataPlace
      rw [show (onePageSet first).be = false from rfl, hplace]
      rfl
    rw [hdata, hzd, hdp]
    omega

theorem lostSet_accepted : getSplittingInfo false (onePageSet lostPart).files ["first", "second"] =
    some (onePageSet lostPart) := by
  have hstore : storeSplittingInfo false (onePageSet lostPart).files ["first", "second"] =
      some [⟨"first", 0, 4, 0, 0⟩, ⟨"second", 4, 8, 0, 0⟩] := by decide +kernel
  have hsort : sortSplittingInfo [⟨"first", 0, 4, 0, 0⟩, ⟨"second", 4, 8, 0, 0⟩] =
      [⟨"first", 0, 4, 0, 0⟩, ⟨"second", 4, 8, 0, 0⟩] := by decide +kernel
  have hdh : readDiskDumpHeader (onePageSet lostPart).files "first" =
      some (pread lostPart 0 464) := by decide +kernel
  have hkh : readKdumpSubHeader false (onePageSet lostPart).files "first" =
      some (pread lostPart 512 104) := by decide +kernel
  have hmax : headerMaxMapnr false (pread lostPart 0 464) (pread lostPart 512 104) = 8 := by
    decide +kernel
  have hversion : headerVersion false (pread lostPart 0 464) = 6 := by decide +kernel
  have hblock : blockSize false (pread lostPart 0 464) = 512 := by decide +kernel
  have hlevel : hostNat false (pread (pread lostPart 512 104) 8 4) = 30 := by decide +kernel
  unfold getSplittingInfo
  simp only [List.head?_cons, hstore, hsort, hdh, hkh, hmax, hversion, hblock, hlevel,
    Option.bind_eq_bind, Option.bind_some]
  rfl

end Split
