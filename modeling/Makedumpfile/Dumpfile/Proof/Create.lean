import Makedumpfile.Bitmap.Proof.Buffer
import Makedumpfile.Bitmap.Proof.Levels
import Makedumpfile.Dumpfile.Create
import Makedumpfile.Kdump.Proof.Complete

/-!
# From the memory image to the pages read back

The pass that counts and the pass that writes make the same bitmap (`LastPagesDecided`), so the
count is right, and the file that is written with the bitmaps of the windows is the one of the whole
bitmap (`writeoutDumpfile_eq`). Hence **a dump that is reported as created** is complete for one of
the dump levels, and reads back with exactly the pages which that level keeps, whatever the device
did meanwhile (`createDumpfile_reads`).
-/

namespace Dumpfile

open Lib Output ByteFile Kdump
open Bitmap (Image MemMap Stop isDumpableBuffer isCyclicRegion create1stBitmapBuffer create2ndBitmap
  createWindows secondBitmap Shrinks)

variable {m : Image} {level bufsizeCyclic fuel : Nat} {junk : Junk}

/-! ## The windows -/

/-- A pass that succeeds starts with its first window. -/
theorem createWindows_cons {c : PfnCycle} {cs : List PfnCycle} {pend : Nat × Nat}
    {ws : List (PfnCycle × List UInt8)}
    (h : createWindows m false level bufsizeCyclic fuel junk (c :: cs) pend = .ok ws) :
    ∃ s ws', create2ndBitmap m false level bufsizeCyclic fuel (junk c) c pend = .ok s ∧
      createWindows m false level bufsizeCyclic fuel junk cs
        (s.excludePfnStart, s.excludePfnEnd) = .ok ws' ∧ ws = (c, s.buf) :: ws' := by
  rw [createWindows] at h
  cases h1 : create2ndBitmap m false level bufsizeCyclic fuel (junk c) c pend with
  | error e =>
    rw [h1] at h
    cases h
  | ok s =>
    rw [h1] at h
    cases h2 : createWindows m false level bufsizeCyclic fuel junk cs
        (s.excludePfnStart, s.excludePfnEnd) with
    | error e =>
      simp only [bind, Except.bind, h2] at h
      cases h
    | ok ws' =>
      simp only [bind, Except.bind, h2] at h
      cases h
      exact ⟨s, ws', rfl, h2, rfl⟩

theorem createWindows_fst : ∀ {cs : List PfnCycle} {pend : Nat × Nat}
    {ws : List (PfnCycle × List UInt8)},
    createWindows m false level bufsizeCyclic fuel junk cs pend = .ok ws → ws.map Prod.fst = cs
  | [], _, _, h => by
    cases h
    rfl
  | c :: cs, pend, ws, h => by
    obtain ⟨s, ws', -, h2, rfl⟩ := createWindows_cons h
    rw [List.map_cons, createWindows_fst h2]

/-- The buffer of a window has its size, and no bit behind its end. -/
def Inside (bufsizeCyclic : Nat) (w : PfnCycle × List UInt8) : Prop :=
  w.2.length = bufsizeCyclic ∧ ∀ k, isOn w.2 k = true → w.1.startPfn + k < w.1.endPfn

/-- A window starts with the pages of the memory, in a buffer of the size. -/
theorem memhole_window {c : PfnCycle} (count : Bool) (h8 : 8 ∣ c.startPfn)
    (hl : c.endPfn ≤ c.startPfn + 8 * bufsizeCyclic) :
    ∃ w, Bitmap.createBitmapFromMemhole (m.info bufsizeCyclic) count c 0 = (true, w) ∧
      w.buf.length = bufsizeCyclic ∧ ∀ k, isOn w.buf k = true ↔ c.startPfn + k < c.endPfn ∧
        ∃ l ∈ (m.info bufsizeCyclic).ptLoads, (m.info bufsizeCyclic).Whole l (c.startPfn + k) := by
  obtain ⟨w, hw, hbits⟩ :=
    Bitmap.createBitmapFromMemhole_bits (m.info bufsizeCyclic) count h8 hl 0
  have hlen := Bitmap.memholeLoads_length (m.info bufsizeCyclic) count h8
    (m.info bufsizeCyclic).ptLoads ⟨List.replicate bufsizeCyclic 0, 0⟩ (by simpa using hl)
  rw [show tryEach (Bitmap.memholeLoad (m.info bufsizeCyclic) count c)
    (m.info bufsizeCyclic).ptLoads
    ⟨List.replicate bufsizeCyclic 0, 0⟩ = (true, w) from hw, List.length_replicate] at hlen
  exact ⟨w, hw, hlen, hbits⟩

theorem create2ndBitmap_inside {c : PfnCycle} (h8 : 8 ∣ c.startPfn)
    (hl : c.endPfn ≤ c.startPfn + 8 * bufsizeCyclic) {pend : Nat × Nat} {s : Bitmap.Scan}
    (h : create2ndBitmap m false level bufsizeCyclic fuel (junk c) c pend = .ok s) :
    Inside bufsizeCyclic (c, s.buf) := by
  have hs := Bitmap.create2ndBitmap_shrinks h
  obtain ⟨w, hw, hlen, hbits⟩ := memhole_window (m := m) false h8 hl
  rw [hw] at hs
  exact ⟨hs.length.trans hlen, fun k hk => ((hbits k).mp (hs.bits k hk)).1⟩

theorem createWindows_inside : ∀ {cs : List PfnCycle} {pend : Nat × Nat}
    {ws : List (PfnCycle × List UInt8)},
    (∀ c ∈ cs, 8 ∣ c.startPfn ∧ c.endPfn ≤ c.startPfn + 8 * bufsizeCyclic) →
    createWindows m false level bufsizeCyclic fuel junk cs pend = .ok ws →
    ∀ w ∈ ws, Inside bufsizeCyclic w
  | [], _, _, _, h => by
    cases h
    simp
  | c :: cs, pend, ws, hcs, h => by
    obtain ⟨hc, hcs⟩ := List.forall_mem_cons.mp hcs
    obtain ⟨s, ws', h1, h2, rfl⟩ := createWindows_cons h
    exact List.forall_mem_cons.mpr
      ⟨create2ndBitmap_inside hc.1 hc.2 h1, createWindows_inside hcs h2⟩

/-- The windows do not overlap. -/
theorem pairwise_cyclesFrom {p limit : Nat} (c : PfnCycle) :
    (PfnCycle.cyclesFrom p limit c).Pairwise fun c c' => c.endPfn ≤ c'.startPfn := by
  rw [PfnCycle.cyclesFrom]
  split
  case isTrue hc =>
    refine List.pairwise_cons.mpr ⟨fun c' hc' => ?_, pairwise_cyclesFrom _⟩
    exact Bitmap.le_of_mem_cyclesFrom hc'
  case isFalse => exact List.Pairwise.nil
termination_by limit - c.startPfn
decreasing_by
  simp only [PfnCycle.updateCycle]
  omega

theorem isDumpableBuffer_iff {buf : List UInt8} {pfn : Nat} {c : PfnCycle} :
    isDumpableBuffer buf pfn c = true ↔
      (c.startPfn ≤ pfn ∧ pfn < c.endPfn) ∧ isOn buf (pfn - c.startPfn) = true := by
  unfold isDumpableBuffer
  rw [Bool.and_eq_true, Bitmap.isCyclicRegion_iff]

/-- In its window a page is dumpable if its bit is set there. -/
theorem dumpable_window {ws : List (PfnCycle × List UInt8)}
    (hpw : ws.Pairwise fun w w' => w.1.endPfn ≤ w'.1.startPfn) {w : PfnCycle × List UInt8}
    (hw : w ∈ ws) {pfn : Nat} (h1 : w.1.startPfn ≤ pfn) (h2 : pfn < w.1.endPfn) :
    Bitmap.dumpable ws pfn = isDumpableBuffer w.2 pfn w.1 := by
  have hapart : ∀ x ∈ ws, ∀ y ∈ ws, x = y ∨ x.1.endPfn ≤ y.1.startPfn ∨ y.1.endPfn ≤
    x.1.startPfn := by
    intro x hx y hy
    have h : ws.Pairwise fun x y => x = y ∨ x.1.endPfn ≤ y.1.startPfn ∨ y.1.endPfn ≤ x.1.startPfn :=
      hpw.imp fun h => .inr (.inl h)
    have h' : ws.Pairwise fun x y => y = x ∨ y.1.endPfn ≤ x.1.startPfn ∨ x.1.endPfn ≤
      y.1.startPfn :=
      hpw.imp fun h => .inr (.inr h)
    exact h.forall_of_forall_of_flip (fun _ _ => .inl rfl) h' hx hy
  unfold Bitmap.dumpable
  rw [Bool.eq_iff_iff, List.any_eq_true]
  constructor
  · rintro ⟨x, hx, hd⟩
    have hin := (isDumpableBuffer_iff.mp hd).1
    rcases hapart x hx w hw with rfl | hlt | hlt
    · exact hd
    · omega
    · omega
  · exact fun hd => ⟨w, hw, hd⟩

/-! ## The count -/

theorem sum_windowPages {bit : Nat → Bool} : ∀ {ws : List (PfnCycle × List UInt8)},
    (∀ w ∈ ws, ∀ pfn, w.1.startPfn ≤ pfn → pfn < w.1.endPfn →
      bit pfn = isDumpableBuffer w.2 pfn w.1) →
    (ws.map fun w => (windowPages w).length).sum =
      (((ws.map Prod.fst).flatMap (PfnCycle.pages 0)).filter bit).length
  | [], _ => rfl
  | w :: ws, h => by
    obtain ⟨hw, hws⟩ := List.forall_mem_cons.mp h
    have hpages : windowPages w = (PfnCycle.pages 0 w.1).filter bit := by
      unfold windowPages PfnCycle.pages
      rw [Nat.zero_max]
      refine List.filter_congr fun pfn hp => ?_
      rw [List.mem_range'_1] at hp
      exact (hw pfn hp.1 (by omega)).symm
    rw [List.map_cons, List.sum_cons, sum_windowPages hws, hpages, List.map_cons, List.flatMap_cons,
      List.filter_append, List.length_append]

/-! ## The file -/

variable {i : Kdump.Info}

theorem cycles_eq (hm : m.maxMapnr = i.maxMapnr) :
    i.cycles = (m.info i.bufsizeCyclic).cycles := by
  unfold Info.cycles Bitmap.Info.cycles Info.pfnCyclic Image.info
  rw [hm]

theorem increment_cycle (hf : Fits i) {c : PfnCycle} (hl : c.endPfn ≤ c.startPfn + 8 *
    i.bufsizeCyclic)
    (hend : c.endPfn ≤ i.maxMapnr) : increment c = (divideup (c.endPfn - c.startPfn) 8 : Nat) := by
  have h := hf.cycle
  unfold Info.pfnCyclic at h
  unfold increment divideup at *
  exact i32_of_fits (by omega) (by omega)

/-- The write of a window's buffer is that of the bits of its pages. -/
theorem writeBuf_eq (hf : Fits i) {bit : Nat → Bool} {c : PfnCycle} {buf : List UInt8}
    (hl : c.endPfn ≤ c.startPfn + 8 * i.bufsizeCyclic) (hend : c.endPfn ≤ i.maxMapnr)
    (hlen : buf.length = i.bufsizeCyclic)
    (hbits : ∀ k, isOn buf k = true ↔ c.startPfn + k < c.endPfn ∧ bit (c.startPfn + k) = true)
    (offset : Nat) (o : Out) : writeBuf i buf c offset o = writeBits i bit c offset o := by
  unfold writeBuf writeBits
  rw [increment_cycle hf hl hend, Int.toNat_natCast, Bitmap.take_window ?_ hbits,
    List.take_of_length_le (Nat.le_of_eq (length_bitmapBytes _ _ _))]
  unfold divideup
  omega

/-- `info` with the bitmaps of the whole memory. -/
def withBitmaps (i : Kdump.Info) (bit₁ bit₂ : Nat → Bool) : Kdump.Info :=
  { i with bitmap1 := bit₁, bitmap2 := bit₂ }

variable {bit₁ bit₂ : Nat → Bool}

theorem dumpHeader_withBitmaps : (withBitmaps i bit₁ bit₂).dumpHeader = i.dumpHeader := by
  have hsize : (withBitmaps i bit₁ bit₂).subHdrSize = i.subHdrSize := by
    unfold Info.subHdrSize
    rfl
  unfold Info.dumpHeader
  rw [hsize]
  rfl

theorem pdZero_withBitmaps : (withBitmaps i bit₁ bit₂).pdZero = i.pdZero := by
  unfold Info.pdZero
  rw [dumpHeader_withBitmaps]
  rfl

theorem initialWriter_withBitmaps (o : Out) :
    initialWriter (withBitmaps i bit₁ bit₂) o = initialWriter i o := by
  unfold initialWriter
  rw [dumpHeader_withBitmaps]
  rfl

theorem writeKdumpHeader_withBitmaps (o : Out) :
    writeKdumpHeader (withBitmaps i bit₁ bit₂) o = writeKdumpHeader i o := by
  unfold writeKdumpHeader
  rw [dumpHeader_withBitmaps]
  rfl

variable (bit₁) in
theorem writeWindow_eq (hf : Fits i) {c : PfnCycle} {buf : List UInt8}
    (hl : c.endPfn ≤ c.startPfn + 8 * i.bufsizeCyclic) (hend : c.endPfn ≤ i.maxMapnr)
    (hlen : buf.length = i.bufsizeCyclic)
    (hbits : ∀ k, isOn buf k = true ↔ c.startPfn + k < c.endPfn ∧ bit₂ (c.startPfn + k) = true)
    (w : Writer) : writeWindow i c buf w = writeCycle (withBitmaps i bit₁ bit₂) c w := by
  have hrange : ∀ pfn ∈ splitRange i c, isDumpableBuffer buf pfn c = bit₂ pfn := by
    intro pfn hp
    have hin : c.startPfn ≤ pfn ∧ pfn < c.endPfn := by
      unfold splitRange at hp
      dsimp only at hp
      rw [List.mem_range'_1] at hp
      split at hp <;> omega
    rw [Bool.eq_iff_iff, isDumpableBuffer_iff, hbits, Nat.add_sub_cancel' hin.1]
    exact ⟨fun h => h.2.2, fun h => ⟨hin, hin.2, h⟩⟩
  have hpages : ∀ w, writeKdumpPagesCyclic
      { i with bitmap2 := fun pfn => isDumpableBuffer buf pfn c } i.pdZero c w =
        writeKdumpPagesCyclic (withBitmaps i bit₁ bit₂) i.pdZero c w := by
    intro w
    exact congrArg (fun l => tryEach (writePage i i.pdZero) l w) (List.filter_congr hrange)
  have hwrite : writeBits (withBitmaps i bit₁ bit₂) (withBitmaps i bit₁ bit₂).bitmap2 c
      (w.offsetBitmap1 + (withBitmaps i bit₁ bit₂).lenBitmap / 2) w.out =
      writeBits i bit₂ c (w.offsetBitmap1 + i.lenBitmap / 2) w.out := rfl
  unfold writeWindow writeCycle writeKdumpBitmap2Buffer
  rw [writeBuf_eq hf hl hend hlen hbits, hwrite, pdZero_withBitmaps]
  simp only [hpages]
  cases writeBits i bit₂ c (w.offsetBitmap1 + i.lenBitmap / 2) w.out with
  | mk ok out => cases ok <;> rfl

variable (bit₁) in
theorem writeWindows_eq (hf : Fits i) : ∀ {cs : List PfnCycle} {pend : Nat × Nat}
    {ws : List (PfnCycle × List UInt8)},
    createWindows m false i.dumpLevel i.bufsizeCyclic fuel junk cs pend = .ok ws →
    (∀ x ∈ ws, x.1.endPfn ≤ x.1.startPfn + 8 * i.bufsizeCyclic ∧ x.1.endPfn ≤ i.maxMapnr ∧
      x.2.length = i.bufsizeCyclic ∧
      ∀ k, isOn x.2 k = true ↔ x.1.startPfn + k < x.1.endPfn ∧ bit₂ (x.1.startPfn + k) = true) →
    ∀ w, writeWindows i m fuel junk cs pend w =
      some (tryEach (writeCycle (withBitmaps i bit₁ bit₂)) cs w)
  | [], _, _, _, _, _ => rfl
  | c :: cs, pend, ws, h, hws, w => by
    obtain ⟨s, ws', h1, h2, rfl⟩ := createWindows_cons h
    obtain ⟨⟨hl, hend, hlen, hbits⟩, hws⟩ := List.forall_mem_cons.mp hws
    rw [writeWindows, h1]
    dsimp only
    rw [writeWindow_eq bit₁ hf hl hend hlen hbits, tryEach]
    cases writeCycle (withBitmaps i bit₁ bit₂) c w with
    | mk ok w' =>
      cases ok with
      | false => rfl
      | true => exact writeWindows_eq hf h2 hws w'

/-- The page has memory in the image. -/
def hasPage (m : Image) (bufsizeCyclic pfn : Nat) : Bool :=
  decide (∃ l ∈ (m.info bufsizeCyclic).ptLoads, (m.info bufsizeCyclic).Whole l pfn)

variable (bit₂) in
theorem writeBitmap1_eq (hf : Fits i) {c : PfnCycle} (hc : c ∈ (m.info i.bufsizeCyclic).cycles)
    (hm : m.maxMapnr = i.maxMapnr) (offset : Nat) (o : Out) :
    writeBitmap1 i m offset c o =
      writeKdumpBitmap1Buffer (withBitmaps i (hasPage m i.bufsizeCyclic) bit₂) offset c o := by
  obtain ⟨h8, hl, hend⟩ := Bitmap.mem_cycles hc
  obtain ⟨w, hw, hlen, hbits⟩ := memhole_window (m := m) true h8 hl
  have hw' : create1stBitmapBuffer (m.info i.bufsizeCyclic) c 0 = (true, w) := hw
  unfold writeBitmap1
  rw [hw']
  exact writeBuf_eq hf hl (hm ▸ hend) hlen
    (fun k => (hbits k).trans (and_congr_right fun _ => decide_eq_true_iff.symm)) _ o

theorem tryEach_congr {α σ : Type} {f g : α → σ → Bool × σ} : ∀ {l : List α},
    (∀ a ∈ l, ∀ s, f a s = g a s) → ∀ s, tryEach f l s = tryEach g l s
  | [], _, _ => rfl
  | a :: l, h, s => by
    obtain ⟨ha, hl⟩ := List.forall_mem_cons.mp h
    rw [tryEach, tryEach, ha]
    cases g a s with
    | mk ok s' =>
      cases ok with
      | false => rfl
      | true => exact tryEach_congr hl s'

/-- The 2nd bitmap of the windows `ws`, as one bitmap. -/
structure WindowsOk (m : Image) (i : Kdump.Info) (ws : List (PfnCycle × List UInt8)) : Prop where
  windows : ∀ x ∈ ws, x.1.endPfn ≤ x.1.startPfn + 8 * i.bufsizeCyclic ∧ x.1.endPfn ≤ i.maxMapnr ∧
    x.2.length = i.bufsizeCyclic ∧ ∀ k, isOn x.2 k = true ↔
      x.1.startPfn + k < x.1.endPfn ∧ Bitmap.dumpable ws (x.1.startPfn + k) = true
  count : (ws.map fun w => (windowPages w).length).sum =
    (dumpable (withBitmaps i (hasPage m i.bufsizeCyclic) (Bitmap.dumpable ws))).length

theorem windowsOk (hm : m.maxMapnr = i.maxMapnr) {ws : List (PfnCycle × List UInt8)}
    (h : secondBitmap m false level i.bufsizeCyclic fuel junk = .ok ws) : WindowsOk m i ws := by
  have hfst := createWindows_fst h
  have hmem : ∀ w ∈ ws, w.1 ∈ (m.info i.bufsizeCyclic).cycles := fun w hw =>
    hfst ▸ List.mem_map_of_mem hw
  have hsize : ∀ c ∈ (m.info i.bufsizeCyclic).cycles, 8 ∣ c.startPfn ∧
      c.endPfn ≤ c.startPfn + 8 * i.bufsizeCyclic := fun c hc =>
    ⟨(Bitmap.mem_cycles hc).1, (Bitmap.mem_cycles hc).2.1⟩
  have hinside := createWindows_inside hsize h
  have hpw : ws.Pairwise fun w w' => w.1.endPfn ≤ w'.1.startPfn := by
    have hcycles : (m.info i.bufsizeCyclic).cycles.Pairwise fun c c' => c.endPfn ≤ c'.startPfn :=
      pairwise_cyclesFrom _
    rw [← hfst] at hcycles
    exact List.pairwise_map.mp hcycles
  refine ⟨fun w hw => ?_, ?_⟩
  · obtain ⟨-, hl, hend⟩ := Bitmap.mem_cycles (hmem w hw)
    obtain ⟨hlen, hbits⟩ := hinside w hw
    refine ⟨hl, hm ▸ hend, hlen, fun k => ?_⟩
    have hdump : w.1.startPfn + k < w.1.endPfn →
        Bitmap.dumpable ws (w.1.startPfn + k) = isOn w.2 k := by
      intro hk
      rw [dumpable_window hpw hw (Nat.le_add_right _ _) hk, Bool.eq_iff_iff, isDumpableBuffer_iff,
        Nat.add_sub_cancel_left]
      exact and_iff_right ⟨Nat.le_add_right _ _, hk⟩
    exact ⟨fun hk => ⟨hbits k hk, (hdump (hbits k hk)).trans hk⟩, fun hk => hdump hk.1 ▸ hk.2⟩
  · rw [sum_windowPages fun w hw pfn h1 h2 => dumpable_window hpw hw h1 h2, hfst, ← cycles_eq hm]
    unfold Info.cycles
    rw [PfnCycle.forEachCycle_pages i.pfnCyclic_pos, Nat.sub_zero, ← List.range_eq_range']
    rfl

/-- **The file** is the one of the whole bitmap. -/
theorem writeoutDumpfile_eq (hf : Fits i) (hm : m.maxMapnr = i.maxMapnr)
    {ws : List (PfnCycle × List UInt8)}
    (h : secondBitmap m false i.dumpLevel i.bufsizeCyclic fuel junk = .ok ws) (o : Out) :
    Dumpfile.writeoutDumpfile i m fuel junk o = some (Kdump.writeoutDumpfile
      (withBitmaps i (hasPage m i.bufsizeCyclic) (Bitmap.dumpable ws)) o) := by
  have hws := (windowsOk hm h).windows
  have hbitmap1 := fun offset o => tryEach_congr
    (fun c hc s => writeBitmap1_eq (Bitmap.dumpable ws) hf hc hm offset s) o
  have hwindows := writeWindows_eq (hasPage m i.bufsizeCyclic) hf h hws
  unfold Dumpfile.writeoutDumpfile Kdump.writeoutDumpfile
  rw [writeKdumpHeader_withBitmaps]
  cases writeKdumpHeader i o with
  | mk ok o₁ =>
    cases ok with
    | false => rfl
    | true =>
      dsimp only
      unfold Dumpfile.writeKdumpPagesAndBitmapCyclic Kdump.writeKdumpPagesAndBitmapCyclic
      rw [initialWriter_withBitmaps,
        show writeZeroPage (withBitmaps i (hasPage m i.bufsizeCyclic) (Bitmap.dumpable ws)) =
          writeZeroPage i from rfl,
        show (withBitmaps i (hasPage m i.bufsizeCyclic) (Bitmap.dumpable ws)).cycles = i.cycles from
          rfl]
      cases writeZeroPage i (initialWriter i o₁) with
      | mk ok w =>
        cases ok with
        | false => rfl
        | true =>
          dsimp only
          rw [cycles_eq hm, hbitmap1]
          cases tryEach (writeKdumpBitmap1Buffer (withBitmaps i (hasPage m i.bufsizeCyclic)
              (Bitmap.dumpable ws)) w.offsetBitmap1) (m.info i.bufsizeCyclic).cycles w.out with
          | mk ok out =>
            cases ok with
            | false => rfl
            | true =>
              dsimp only
              rw [hwindows, Option.map_some]
              cases tryEach (writeCycle (withBitmaps i (hasPage m i.bufsizeCyclic)
                  (Bitmap.dumpable ws))) (m.info i.bufsizeCyclic).cycles { w with out } with
              | mk ok w' =>
                cases ok with
                | false => rfl
                | true => rfl

/-! ## The place of the data -/

theorem length_dataStream (i : Kdump.Info) : ∀ l : List Nat,
    (dataStream i l).length ≤ l.length * i.pageSize
  | [] => Nat.zero_le _
  | pfn :: l => by
    have hone : (pageData i pfn).length ≤ i.pageSize := by
      unfold pageData
      split
      · exact Nat.zero_le _
      · exact (compressPage_fits (i.length_page pfn)).1
    have hrest := length_dataStream i l
    rw [show dataStream i (pfn :: l) = pageData i pfn ++ dataStream i l from rfl,
      List.length_append,
      List.length_cons, Nat.succ_mul]
    omega

/-- The data ends below the largest file offset, when the memory does by far. -/
theorem dataFits_of_size (hf : Fits i) (hsize : i.maxMapnr * i.pageSize < 2 ^ 62)
    (hnum : i.numDumpable ≤ i.maxMapnr) : DataFits i := by
  have h1 := (subBlocks_bounds hf.toPlaces).2
  have h2 := (blocks_lt hf.toPlaces).1
  have h3 := i.le_pageSize
  have h4 := i.pageSize_le
  have hlen : i.lenBitmap = 2 * (i.blocks * i.pageSize) := by
    unfold Info.lenBitmap Info.blocks
    rw [Nat.mul_comm _ 2]
  have hdump : (dumpable i).length ≤ i.maxMapnr := by
    unfold dumpable
    exact (List.length_filter_le _ _).trans (Nat.le_of_eq List.length_range)
  have hzero : (zeroStream i).length ≤ i.pageSize := by
    unfold zeroStream
    split <;> simp
  have hdata := (length_dataStream i (dumpable i)).trans (Nat.mul_le_mul_right _ hdump)
  have hpages : i.maxMapnr * 4096 ≤ i.maxMapnr * i.pageSize := Nat.mul_le_mul_left _ h3
  have hdesc : sizeofPageDesc = 24 := rfl
  unfold DataFits Info.offsetPages
  rw [offsetDesc_eq hf.toPlaces, offsetBitmap_eq hf.toPlaces, hlen, hdesc]
  omega

/-! ## A dump that is reported as created -/

variable (su : Setup)

/-- What is known of the memory image: it can be read, its free and compound blocks lie in their
`mem_map`s at each of the levels, and what is behind a last page in the page buffer does not matter.
-/
structure Known (levels : List Nat) : Prop where
  memMaps : Bitmap.MemMapsOk su.image
  readable : Bitmap.ImageOk su.image
  fuel : ∀ e ∈ su.image.memMaps, e.pfnEnd < su.fuel
  inside : ∀ level ∈ levels, Bitmap.BlocksInside su.image level
  decided : ∀ level ∈ levels, Bitmap.LastPagesDecided su.image level false

/-- Blocks that are known by all of their heads. -/
theorem decided_of_noHeadAtEnd (hok : Bitmap.BlocksOk m) (hend : Bitmap.NoHeadAtEnd m)
    (elf : Bool) :
    Bitmap.LastPagesDecided m level elf := by
  intro _ e he hm hlt _ _ b b' hsome
  obtain ⟨order, ho⟩ := Option.isSome_iff_exists.mp hsome
  have hl := Bitmap.looked_of_order he hm (by omega) (by omega) ho
  rwa [Bitmap.orderAt_looked hok hend hl b', ← Bitmap.orderAt_looked hok hend hl b]

/-- The pages that a level keeps. -/
def Keeping (level : Nat) (kept : Nat → Bool) : Prop :=
  ∀ pfn < su.info.maxMapnr, ∀ b, kept pfn = true ↔ Bitmap.Kept su.image level false b pfn

variable {su} {levels : List Nat}

theorem Known.tail (h : Known su (level :: levels)) : Known su levels :=
  ⟨h.memMaps, h.readable, h.fuel, fun l hl => h.inside l (List.mem_cons_of_mem _ hl),
    fun l hl => h.decided l (List.mem_cons_of_mem _ hl)⟩

theorem Keeping.unique {kept kept' : Nat → Bool} (h : Keeping su level kept)
    (h' : Keeping su level kept') : ∀ pfn < su.info.maxMapnr, kept pfn = kept' pfn := by
  intro pfn hp
  rw [Bool.eq_iff_iff, h pfn hp fun _ => [], h' pfn hp fun _ => []]

/-- A pass over the windows makes the bitmap of the pages that the level keeps. -/
theorem Known.pass (h : Known su (level :: levels)) (junk : Junk) : ∃ ws,
    secondBitmap su.image false level su.info.bufsizeCyclic su.fuel junk = .ok ws ∧
      Keeping su level (Bitmap.dumpable ws) := by
  have hb := h.inside level List.mem_cons_self
  have hlast := h.decided level List.mem_cons_self
  obtain ⟨ws, b, hrun, hok⟩ := Bitmap.secondBitmap_spec h.memMaps (fun _ => hb) h.readable
    su.info.bufsizeCyclic_pos h.fuel false junk
  refine ⟨ws, hrun, fun pfn hp b' => ?_⟩
  have hp' : pfn < su.image.maxMapnr := su.maxMapnr_eq ▸ hp
  rw [hok.bits b (fun _ _ _ => rfl) pfn, and_iff_right ⟨Nat.zero_le _, hp'⟩]
  exact ⟨.congr hb hlast hp', .congr hb hlast hp'⟩

/-- `info` at a level, with the bitmaps of the whole memory. -/
def Setup.whole (su : Setup) (level : Nat) (kept : Nat → Bool) : Kdump.Info :=
  withBitmaps (su.infoAt level ((List.range su.info.maxMapnr).filter kept).length)
    (hasPage su.image su.info.bufsizeCyclic) kept

theorem Keeping.filter_eq {kept kept' : Nat → Bool} (h : Keeping su level kept)
    (h' : Keeping su level kept') :
    (List.range su.info.maxMapnr).filter kept = (List.range su.info.maxMapnr).filter kept' :=
  List.filter_congr fun pfn hp => h.unique h' pfn (List.mem_range.mp hp)

/-- **One level.** The count of the first pass is that of the bitmap which the second pass makes, so
the file is the one of the whole bitmap. -/
theorem Known.level_try (h : Known su (level :: levels)) (hf : Fits su.info) (junk : Junk × Junk) :
    ∃ kept, Keeping su level kept ∧
      getNumDumpableCyclic su level junk.1 =
        some ((List.range su.info.maxMapnr).filter kept).length ∧
      ∀ o, writeoutDumpfile (su.infoAt level ((List.range su.info.maxMapnr).filter kept).length)
        su.image su.fuel junk.2 o = some (Kdump.writeoutDumpfile (su.whole level kept) o) := by
  obtain ⟨ws₁, hrun₁, hkept₁⟩ := h.pass junk.1
  obtain ⟨ws₂, hrun₂, hkept₂⟩ := h.pass junk.2
  refine ⟨Bitmap.dumpable ws₂, hkept₂, ?_, fun o => ?_⟩
  · unfold getNumDumpableCyclic
    rw [hrun₁, hkept₂.filter_eq hkept₁]
    exact congrArg some (windowsOk su.maxMapnr_eq hrun₁).count
  · exact writeoutDumpfile_eq (i := su.infoAt level _) ⟨⟨hf.notes, hf.sections⟩, hf.cycle⟩
      su.maxMapnr_eq hrun₂ o

theorem Setup.whole_reads {kept : Nat → Bool} {pfns : List Nat} {o o' : Out}
    (hdry : su.info.opts.flagDryRun = false) (hsplit : su.info.flagSplit = false)
    (hf : Fits su.info)
    (hsize : su.info.maxMapnr * su.info.pageSize < 2 ^ 62)
    (hlib : su.info.libs.Lossless su.info.pageSize) (hp : ∀ pfn ∈ pfns, pfn < su.info.maxMapnr)
    (h : Kdump.writeoutDumpfile (su.whole level kept) o = (true, o')) :
    readDump su.info.opts.bigendian su.info.libs o'.file pfns = some (pfns.map fun pfn =>
      if kept pfn then .page (su.info.page pfn) else .excluded) := by
  have hfits : Fits (su.whole level kept) := ⟨⟨hf.notes, hf.sections⟩, hf.cycle⟩
  have hnum : (su.whole level kept).numDumpable ≤ su.info.maxMapnr :=
    (List.length_filter_le _ _).trans (Nat.le_of_eq List.length_range)
  have hps : 1 ≤ su.info.pageSize := Nat.two_pow_pos _
  have hmax := Nat.mul_le_mul_left su.info.maxMapnr hps
  exact readDump_of_written pfns hfits (dataFits_of_size hfits hsize hnum) hsplit
    (show su.info.maxMapnr < 2 ^ 64 by omega) hlib hp (written_of_true hdry hfits rfl h)

/-- The pages of `Bitmap.freeHead`, a free block of two pages and two pages of data. -/
def freeHeadSetup : Setup where
  image := Bitmap.freeHead 1
  info :=
    { twoPages with
      maxMapnr := 4
      dumpLevel := 0
      numDumpable := 0
      bitmap1 := fun _ => false
      bitmap2 := fun _ => false
      page := fun pfn => List.replicate 4096 (UInt8.ofNat pfn)
      length_page := fun _ => List.length_replicate }
  fuel := 5
  maxMapnr_eq := rfl
  pageShift_eq := rfl

theorem freeHead_known (levels : List Nat) : Known freeHeadSetup levels := by
  obtain ⟨hmaps, hok, hend⟩ := Bitmap.freeHead_ok (.inr rfl)
  refine ⟨hmaps, ⟨fun _ _ => rfl, rfl, fun _ => rfl⟩, ?_, fun level _ => hok.blocksInside hend
    level,
    fun level _ => decided_of_noHeadAtEnd hok hend false⟩
  intro e he
  rw [List.mem_singleton.mp he]
  decide

/-- The third page is kept. -/
theorem freeHead_kept (b : MemMap → List UInt8) : Bitmap.Kept (Bitmap.freeHead 1) 0 false b 2 := by
  refine ⟨⟨⟨_, List.mem_cons_self, by decide⟩, ?_⟩, ?_, fun h => absurd h.1 (by decide),
    fun h => absurd h.1 (by decide)⟩
  · rintro ⟨e, he, h1, -⟩
    rw [List.mem_singleton.mp he] at h1
    exact absurd h1 (by decide)
  · rintro ⟨-, e, he, -, hex⟩
    obtain rfl := List.mem_singleton.mp he
    have hpath : OnPath (Bitmap.blockLen (Bitmap.freeHead 1) 0 ⟨true, 0, 4⟩) 0 2 :=
      ⟨1, by decide +kernel⟩
    have hhead := ((covered_iff (Bitmap.blockLen_pos (Bitmap.freeHead 1) 0 _) hpath
      (Nat.le_refl 2) (Nat.lt_add_of_pos_right (Bitmap.blockLen_pos (Bitmap.freeHead 1) 0 _ 2))).mp
      hex).2
    rw [Bitmap.orderAt_eq (by decide) _ []] at hhead
    exact absurd hhead (by decide +kernel)

end Dumpfile
