import Makedumpfile.Bitmap.Memhole
import Makedumpfile.Bitmap.Proof.File

/-!
# Two builders of the 1st bitmap

A window has the frames `[phys_start / page_size, phys_end / page_size)` of every `PT_LOAD`
(`createBitmapFromMemhole_bits`), without a last page that is not full; the bitmap file has that
page too, added after the end was clamped to `max_mapnr` (`create1stBitmapFile_bits`). So the two
agree exactly when every such page is in another `PT_LOAD` or beyond the bitmap
(`builders_agree_iff`).
-/

namespace Bitmap

open Lib ByteFile

variable {i : Info} {c : PfnCycle}

/-! ## A window -/

theorem isOn_ones {n k : Nat} (h : k < 8 * n) : isOn (List.replicate n 0xff) k = true := by
  have hbyte : ∀ j : Fin 8, (0xff : UInt8).toNat.testBit j = true := by decide
  unfold isOn
  rw [List.getD_eq_getElem?_getD, List.getElem?_replicate, if_pos (by omega)]
  exact hbyte ⟨k % 8, Nat.mod_lt _ (by decide)⟩

theorem isOn_zeros (n k : Nat) : isOn (List.replicate n 0) k = false := by
  unfold isOn
  rw [List.getD_eq_getElem?_getD, List.getElem?_replicate]
  split <;> simp

/-- The window `w'` has the frames `[a, e)` more than `w`. -/
structure Adds (c : PfnCycle) (w w' : Window) (a e : Nat) : Prop where
  length : w'.buf.length = w.buf.length
  bits : ∀ k, isOn w'.buf k = (isOn w.buf k || decide (a ≤ c.startPfn + k ∧ c.startPfn + k < e))

theorem Adds.trans {w w1 w2 : Window} {a e a' e' x y : Nat} (h1 : Adds c w w1 a e)
    (h2 : Adds c w1 w2 a' e')
    (h : ∀ p, c.startPfn ≤ p → ((a ≤ p ∧ p < e) ∨ (a' ≤ p ∧ p < e') ↔ x ≤ p ∧ p < y)) :
    Adds c w w2 x y := by
  refine ⟨h2.length.trans h1.length, fun k => ?_⟩
  rw [h2.bits, h1.bits, Bool.or_assoc, ← Bool.decide_or,
    decide_eq_decide.2 (h (c.startPfn + k) (by omega))]

theorem adds_none (w : Window) {a e : Nat} (h : e ≤ max a c.startPfn) : Adds c w w a e := by
  refine ⟨rfl, fun k => ?_⟩
  rw [decide_eq_false (by omega), Bool.or_false]

/-- Bit by bit. -/
theorem setBits_adds (count : Bool) : ∀ (n a : Nat) (w : Window), c.startPfn ≤ a → a + n ≤ c.endPfn →
    c.endPfn ≤ c.startPfn + 8 * w.buf.length →
    ∃ w', tryEach (setBitCount count c) (List.range' a n) w = (true, w') ∧ Adds c w w' a (a + n)
  | 0, a, w, _, _, _ => ⟨w, rfl, adds_none w (by omega)⟩
  | n + 1, a, w, hs, he, hl => by
    set w1 : Window := ⟨setBit w.buf (a - c.startPfn) true,
      if count then w.pfnMemhole - 1 else w.pfnMemhole⟩ with hw1
    have h1 : setBitCount count c a w = (true, w1) := by
      have hin : isCyclicRegion a c = true := by
        simp only [isCyclicRegion, Bool.and_eq_true, decide_eq_true_eq]
        omega
      unfold setBitCount setBitmapBuffer
      rw [if_pos hin]
    have hadd : Adds c w w1 a (a + 1) := by
      refine ⟨by simp [hw1], fun k => ?_⟩
      rw [hw1]
      dsimp only
      rw [isOn_setBit (by omega)]
      by_cases hk : k = a - c.startPfn
      · rw [if_pos hk, decide_eq_true (by omega), Bool.or_true]
      · rw [if_neg hk, decide_eq_false (by omega), Bool.or_false]
    obtain ⟨w2, h2, hadd2⟩ := setBits_adds count n (a + 1) w1 (by omega) (by omega)
      (by rw [hadd.length]; exact hl)
    refine ⟨w2, ?_, hadd.trans hadd2 fun p _ => by omega⟩
    rw [List.range'_succ, tryEach, h1]
    exact h2

/-- Whole bytes. -/
theorem memset_adds (w : Window) (m : Int) {a e : Nat} (hl : e ≤ w.buf.length) (h : a < e) :
    Adds c w ⟨pwrite w.buf a (List.replicate (e - a) 0xff), m⟩ (c.startPfn + 8 * a)
      (c.startPfn + 8 * e) := by
  refine ⟨?_, fun k => ?_⟩
  · rw [length_pwrite, List.length_replicate]
    split <;> omega
  · dsimp only
    rw [isOn_pwrite, List.length_replicate]
    by_cases hk : 8 * a ≤ k ∧ k < 8 * (a + (e - a))
    · rw [if_pos hk, isOn_ones (by omega), decide_eq_true (by omega), Bool.or_true]
    · rw [if_neg hk, decide_eq_false (by omega), Bool.or_false]

/-- The byte numbers and the edges of `[s, e)` in a window that starts at a whole byte. -/
theorem edges {cs s e : Nat} (h8 : 8 ∣ cs) (hs : cs ≤ s) (he : s < e) :
    let up := min (roundup s 8) e
    let down := max (PfnCycle.round e 8) s
    s ≤ up ∧ up ≤ e ∧ s ≤ down ∧ down ≤ e ∧
      ((up - cs) / 8 < (down - cs) / 8 → cs + 8 * ((up - cs) / 8) = up ∧
        cs + 8 * ((down - cs) / 8) = down) ∧
      (¬ (up - cs) / 8 < (down - cs) / 8 → down ≤ up) := by
  obtain ⟨m, rfl⟩ := h8
  unfold roundup PfnCycle.round
  dsimp only
  omega

/-- The frames of a `PT_LOAD` that the loop over it adds to a window. -/
theorem memholeLoad_adds (i : Info) (count : Bool) (h8 : 8 ∣ c.startPfn) (l : PtLoad) (w : Window)
    (hl : c.endPfn ≤ c.startPfn + 8 * w.buf.length) :
    ∃ w', memholeLoad i count c l w = (true, w') ∧
      Adds c w w' (i.paddrToPfn l.physStart) (min (i.paddrToPfn l.physEnd) c.endPfn) := by
  unfold memholeLoad
  generalize hs : max (i.paddrToPfn l.physStart) c.startPfn = s
  generalize he : min (i.paddrToPfn l.physEnd) c.endPfn = e
  dsimp only
  by_cases hse : s ≥ e
  · rw [if_pos hse]
    exact ⟨w, rfl, adds_none w (by omega)⟩
  rw [if_neg hse]
  obtain ⟨hup, hup', hdn, hdn', hbytes, hnobytes⟩ := edges h8 (show c.startPfn ≤ s by omega)
    (show s < e by omega)
  generalize min (roundup s 8) e = up at hup hup' hbytes hnobytes
  generalize max (PfnCycle.round e 8) s = down at hdn hdn' hbytes hnobytes
  obtain ⟨w1, h1, hadd1⟩ := setBits_adds count (up - s) s w (by omega) (by omega) hl
  rw [Nat.add_sub_cancel' hup] at hadd1
  rw [h1]
  dsimp only
  have hlen1 := hadd1.length
  by_cases hb : (up - c.startPfn) / 8 < (down - c.startPfn) / 8
  · obtain ⟨hup8, hdn8⟩ := hbytes hb
    rw [if_pos hb]
    generalize (if count = true then _ else w1.pfnMemhole : Int) = m
    have hadd2 := @memset_adds c w1 m _ _ (by omega) hb
    rw [hup8, hdn8] at hadd2
    have hlen2 := hadd2.length
    dsimp only at hlen2
    obtain ⟨w3, h3, hadd3⟩ := setBits_adds (c := c) count (e - down) down
      ⟨pwrite w1.buf ((up - c.startPfn) / 8) _, m⟩ (show c.startPfn ≤ down by omega) (by omega)
      (by dsimp only; rw [hlen2, hlen1]; exact hl)
    rw [Nat.add_sub_cancel' hdn'] at hadd3
    have hadd12 : Adds c w _ s down := hadd1.trans hadd2 fun p _ => by omega
    exact ⟨w3, h3, hadd12.trans hadd3 fun p _ => by omega⟩
  · rw [if_neg hb]
    have hle := hnobytes hb
    obtain ⟨w2, h2, hadd2⟩ := setBits_adds (c := c) count (e - down) down w1 (by omega) (by omega)
      (by rw [hlen1]; exact hl)
    rw [Nat.add_sub_cancel' hdn'] at hadd2
    exact ⟨w2, h2, hadd1.trans hadd2 fun p _ => by omega⟩

/-- The frame `pfn` is a whole page of a `PT_LOAD`, or its first. -/
def Info.Whole (i : Info) (l : PtLoad) (pfn : Nat) : Prop :=
  i.paddrToPfn l.physStart ≤ pfn ∧ pfn < i.paddrToPfn l.physEnd

instance (l : PtLoad) (pfn : Nat) : Decidable (i.Whole l pfn) := inferInstanceAs (Decidable (_ ∧ _))

theorem memholeLoads_bits (i : Info) (count : Bool) (h8 : 8 ∣ c.startPfn) :
    ∀ (ls : List PtLoad) (w : Window), c.endPfn ≤ c.startPfn + 8 * w.buf.length →
    ∃ w', tryEach (memholeLoad i count c) ls w = (true, w') ∧
      ∀ k, isOn w'.buf k = true ↔ isOn w.buf k = true ∨
        (c.startPfn + k < c.endPfn ∧ ∃ l ∈ ls, i.Whole l (c.startPfn + k))
  | [], w, _ => ⟨w, rfl, by simp⟩
  | l :: ls, w, hl => by
    obtain ⟨w1, h1, hadd⟩ := memholeLoad_adds i count h8 l w hl
    obtain ⟨w2, h2, hbits⟩ := memholeLoads_bits i count h8 ls w1 (by rw [hadd.length]; exact hl)
    refine ⟨w2, by rw [tryEach, h1]; exact h2, fun k => ?_⟩
    rw [hbits, hadd.bits]
    simp only [Bool.or_eq_true, decide_eq_true_eq, List.mem_cons, exists_eq_or_imp, Info.Whole,
      lt_inf_iff]
    tauto

theorem memholeLoads_length (i : Info) (count : Bool) (h8 : 8 ∣ c.startPfn) :
    ∀ (ls : List PtLoad) (w : Window), c.endPfn ≤ c.startPfn + 8 * w.buf.length →
    (tryEach (memholeLoad i count c) ls w).2.buf.length = w.buf.length
  | [], w, _ => rfl
  | l :: ls, w, hl => by
    obtain ⟨w1, h1, hadd⟩ := memholeLoad_adds i count h8 l w hl
    rw [tryEach, h1, ← hadd.length]
    exact memholeLoads_length i count h8 ls w1 (by rw [hadd.length]; exact hl)

/-- **A window of the 1st bitmap.** -/
theorem createBitmapFromMemhole_bits (i : Info) (count : Bool) (h8 : 8 ∣ c.startPfn)
    (hl : c.endPfn ≤ c.startPfn + 8 * i.bufsizeCyclic) (m : Int) :
    ∃ w, createBitmapFromMemhole i count c m = (true, w) ∧
      ∀ k, isOn w.buf k = true ↔
        c.startPfn + k < c.endPfn ∧ ∃ l ∈ i.ptLoads, i.Whole l (c.startPfn + k) := by
  obtain ⟨w, h, hbits⟩ := memholeLoads_bits i count h8 i.ptLoads
    ⟨List.replicate i.bufsizeCyclic 0, m⟩ (by simpa using hl)
  refine ⟨w, h, fun k => ?_⟩
  rw [hbits, isOn_zeros]
  simp

/-! ## The windows -/

theorem mem_cyclesFrom {p limit : Nat} (hp : 8 ∣ p) (c0 : PfnCycle)
    (he : c0.endPfn = min (c0.startPfn + p) limit) (h8 : c0.startPfn < limit → 8 ∣ c0.startPfn)
    (h : c ∈ PfnCycle.cyclesFrom p limit c0) :
    8 ∣ c.startPfn ∧ c.endPfn ≤ c.startPfn + p ∧ c.endPfn ≤ limit := by
  rw [PfnCycle.cyclesFrom] at h
  split at h
  · rename_i hc
    rcases List.mem_cons.1 h with rfl | h
    · exact ⟨h8 hc.1, by omega, by omega⟩
    · refine mem_cyclesFrom hp (PfnCycle.updateCycle p limit c0) rfl (fun hlt => ?_) h
      simp only [PfnCycle.updateCycle] at hlt ⊢
      rw [show c0.endPfn = c0.startPfn + p by omega]
      exact Nat.dvd_add (h8 hc.1) hp
  · cases h
termination_by limit - c0.startPfn
decreasing_by
  simp only [PfnCycle.updateCycle]
  omega

theorem mem_cycles (h : c ∈ i.cycles) : 8 ∣ c.startPfn ∧
    c.endPfn ≤ c.startPfn + 8 * i.bufsizeCyclic ∧ c.endPfn ≤ i.maxMapnr := by
  have h0 : PfnCycle.firstCycle (i.bufsizeCyclic * 8) false 0 i.maxMapnr =
      ⟨0, min (0 + i.bufsizeCyclic * 8) i.maxMapnr⟩ := by
    simp [PfnCycle.firstCycle, PfnCycle.round]
  unfold Info.cycles PfnCycle.forEachCycle at h
  rw [h0] at h
  obtain ⟨h8, hl, hm⟩ := mem_cyclesFrom (Nat.dvd_mul_left 8 _) _ rfl (fun _ => Nat.dvd_zero 8) h
  exact ⟨h8, by omega, hm⟩

/-- Every frame is in a window. -/
theorem exists_cycle (hb : 0 < i.bufsizeCyclic) {pfn : Nat} (h : pfn < i.maxMapnr) :
    ∃ c ∈ i.cycles, c.startPfn ≤ pfn ∧ pfn < c.endPfn := by
  have hmem : pfn ∈ i.cycles.flatMap (PfnCycle.pages 0) := by
    unfold Info.cycles
    rw [PfnCycle.forEachCycle_pages (by omega), List.mem_range'_1]
    omega
  obtain ⟨c, hc, hp⟩ := List.mem_flatMap.1 hmem
  unfold PfnCycle.pages at hp
  rw [List.mem_range'_1] at hp
  exact ⟨c, hc, by omega, by omega⟩

/-! ## The file -/

section File

variable {b : FileBitmap} {blocks : Nat} {cur : Nat → Bool} {dirty : Bool}

/-- A page past the end of the file is not set, and nothing else changes. -/
theorem setBitmapFile_beyond (h : Inv b blocks cur dirty) (hb : blocks ≤ 2 ^ 19) {pfn : Nat}
    (hp : blocks ≤ pfn / 32768) (hshort : b.file.length ≤ b.newOffset pfn) (val : Bool) :
    ∃ b', setBitmapFile b pfn val = (false, b') ∧ Inv b' blocks cur false ∧ b'.offset = b.offset ∧
      b'.file.length = b.file.length := by
  have hnew := newOffset_eq b pfn
  have hread : ∀ b1 : FileBitmap, b1.file.length = b.file.length →
      b1.readBuf (b.newOffset pfn) = (false, b1) := by
    intro b1 hl
    have hnil : pread b1.file (b.newOffset pfn) bufsizeBitmap = [] := by
      apply List.eq_nil_of_length_eq_zero
      rw [length_pread]
      omega
    unfold FileBitmap.readBuf
    rw [hnil]
    rfl
  obtain hneg | ⟨k, hlt, hkk, -⟩ := h.block
  · refine ⟨b, ?_, { h with clean := fun _ => h.clean_of_neg hneg }, rfl, rfl⟩
    have hne : b.oldOffset ≠ b.newOffset pfn := by
      rw [oldOffset_neg hneg, hnew]
      omega
    have hn' : ¬ (0 ≤ b.noBlock) := by omega
    simp [setBitmapFile, hn', hne, hread b rfl]
  · obtain ⟨b1, h1, hi1, ho1, -, hl1, -⟩ := h.writeBuf hkk (by omega)
    refine ⟨b1, ?_, hi1, ho1, hl1⟩
    have hne : b.oldOffset ≠ b.newOffset pfn := by
      rw [oldOffset_eq hkk (by omega), hnew]
      omega
    have hn : 0 ≤ b.noBlock := by omega
    simp [setBitmapFile, hn, hne, h1, hread b1 hl1]

/-- One `set_bit_on_1st_bitmap` on a file of `n` blocks. -/
theorem attempt_inv {n : Nat} (h : Inv b (min n (2 ^ 19)) cur dirty) (ho : b.offset = 0)
    (hl : b.file.length = 4096 * n) {pfn : Nat} (hp : pfn < 2 ^ 34) :
    ∃ cur' dirty', Inv (setBitmapFile b pfn true).2 (min n (2 ^ 19)) cur' dirty' ∧
      (setBitmapFile b pfn true).2.offset = 0 ∧
      (setBitmapFile b pfn true).2.file.length = 4096 * n ∧
      ∀ q, cur' q = true ↔ cur q = true ∨ (q = pfn ∧ q < 32768 * n) := by
  by_cases hin : pfn / 32768 < n
  · obtain ⟨b1, h1, hi1, ho1, hl1, -⟩ := setBitmapFile_inv h (by omega)
      (show pfn / 32768 < min n (2 ^ 19) by omega) true
    rw [h1]
    refine ⟨_, true, hi1, ho1.trans ho, hl1.trans hl, fun q => ?_⟩
    rw [ho, Nat.mul_zero, Nat.zero_add, Function.update_apply]
    by_cases hq : q = pfn
    · rw [if_pos hq]
      exact ⟨fun _ => .inr ⟨hq, by omega⟩, fun _ => rfl⟩
    · rw [if_neg hq]
      exact ⟨.inl, fun h => h.resolve_right fun h => hq h.1⟩
  · obtain ⟨b1, h1, hi1, ho1, hl1⟩ := setBitmapFile_beyond h (by omega)
      (show min n (2 ^ 19) ≤ pfn / 32768 by omega) (by rw [newOffset_eq]; omega) true
    rw [h1]
    refine ⟨cur, false, hi1, ho1.trans ho, hl1.trans hl, fun q => ?_⟩
    exact ⟨.inl, fun h => h.resolve_right fun h => by omega⟩

theorem attempts_inv {n : Nat} : ∀ (pfns : List Nat) (b : FileBitmap) (cur : Nat → Bool)
    (dirty : Bool), Inv b (min n (2 ^ 19)) cur dirty → b.offset = 0 → b.file.length = 4096 * n →
    (∀ p ∈ pfns, p < 2 ^ 34) →
    ∃ cur' dirty', Inv (pfns.foldl (fun b pfn => (setBitmapFile b pfn true).2) b) (min n (2 ^ 19))
        cur' dirty' ∧
      ∀ q, cur' q = true ↔ cur q = true ∨ (q ∈ pfns ∧ q < 32768 * n)
  | [], b, cur, dirty, h, _, _, _ => ⟨cur, dirty, h, by simp⟩
  | p :: pfns, b, cur, dirty, h, ho, hl, hp => by
    obtain ⟨cur1, d1, hi1, ho1, hl1, hc1⟩ := attempt_inv h ho hl (hp p (by simp))
    obtain ⟨cur2, d2, hi2, hc2⟩ := attempts_inv pfns _ cur1 d1 hi1 ho1 hl1
      fun q hq => hp q (List.mem_cons_of_mem _ hq)
    refine ⟨cur2, d2, hi2, fun q => ?_⟩
    rw [hc2, hc1, List.mem_cons]
    tauto

/-- The length of a bitmap in blocks. -/
theorem lenBitmap_blocks (hs : 12 ≤ i.pageShift) : i.lenBitmap / 2 = 4096 * (i.lenBitmap / 2 / 4096) := by
  have hps : i.pageSize = 4096 * 2 ^ (i.pageShift - 12) := by
    unfold Info.pageSize
    rw [show 4096 = 2 ^ 12 by decide, ← pow_add]
    congr 1
    omega
  have hlen : i.lenBitmap / 2 =
      4096 * (divideup (divideup i.maxMapnr 8) i.pageSize * 2 ^ (i.pageShift - 12)) := by
    unfold Info.lenBitmap
    rw [Nat.mul_div_cancel _ (by decide), hps]
    ring
  rw [hlen, Nat.mul_div_cancel_left _ (by decide)]

/-- **The 1st bitmap in a new file.** -/
theorem create1stBitmapFile_bits (hs : 12 ≤ i.pageShift)
    (hp : ∀ p ∈ i.ptLoads.flatMap i.fileFrames, p < 2 ^ 34) :
    ∃ b m, create1stBitmapFile i { offset := 0, file := [] } = (true, b, m) ∧
      ∀ q, isOn b.file q = true ↔
        (∃ l ∈ i.ptLoads, q ∈ i.fileFrames l) ∧ q < 32768 * (i.lenBitmap / 2 / 4096) := by
  set n := i.lenBitmap / 2 / 4096 with hn
  have hlen : (pwrite [] 0 (List.replicate (i.lenBitmap / 2) (0 : UInt8))).length = 4096 * n := by
    rw [length_pwrite, List.length_replicate]
    have := lenBitmap_blocks hs
    split
    · rename_i h0
      have := congrArg List.length h0
      simp only [List.length_replicate, List.length_nil] at this ⊢
      omega
    · simp only [List.length_nil]
      omega
  have hzero : ∀ q, isOn (pwrite [] 0 (List.replicate (i.lenBitmap / 2) (0 : UInt8))) q = false := by
    intro q
    rw [isOn_pwrite, List.length_replicate]
    split
    · exact isOn_zeros _ _
    · simp [isOn]
  have hinit : Inv { offset := 0, file := pwrite [] 0 (List.replicate (i.lenBitmap / 2) 0) }
      (min n (2 ^ 19)) _ false := inv_init (by rw [hlen]; omega)
  obtain ⟨cur, d, hi, hc⟩ := attempts_inv (i.ptLoads.flatMap i.fileFrames) _ _ _ hinit rfl hlen hp
  obtain ⟨b, h, -, -, -, hf⟩ := syncBitmap_inv hi (by omega)
  refine ⟨b, i.maxMapnr - (i.ptLoads.flatMap i.fileFrames).length, ?_, fun q => ?_⟩
  · unfold create1stBitmapFile
    dsimp only
    rw [h]
  · rw [hf, hc, hzero, List.mem_flatMap]
    simp

end File

/-! ## The pages of the `PT_LOAD`s -/

/-- At least one byte of the page is in the `PT_LOAD`. -/
def Info.Covers (i : Info) (l : PtLoad) (pfn : Nat) : Prop :=
  ∃ a, l.physStart ≤ a ∧ a < l.physEnd ∧ i.paddrToPfn a = pfn

theorem pageSize_pos (i : Info) : 0 < i.pageSize := Nat.two_pow_pos _

theorem covers_of_whole {l : PtLoad} {pfn : Nat} (h : i.Whole l pfn) : i.Covers l pfn := by
  obtain ⟨hs, he⟩ := h
  unfold Info.paddrToPfn at hs he
  have hpos := pageSize_pos i
  have hstart : l.physStart < (pfn + 1) * i.pageSize := (Nat.div_lt_iff_lt_mul hpos).1 (by omega)
  have hend : (pfn + 1) * i.pageSize ≤ l.physEnd := (Nat.le_div_iff_mul_le hpos).1 he
  rw [Nat.add_mul, Nat.one_mul] at hstart hend
  refine ⟨max l.physStart (pfn * i.pageSize), by omega, by omega, ?_⟩
  apply Nat.div_eq_of_lt_le
  · omega
  · rw [Nat.add_mul, Nat.one_mul]
    omega

/-- A covered page that is not whole is the last one, cut by the end of the `PT_LOAD`. -/
theorem Info.Covers.whole_or_last {l : PtLoad} {pfn : Nat} (h : i.Covers l pfn) :
    i.Whole l pfn ∨
      (pfn = i.paddrToPfn l.physEnd ∧ l.physEnd % i.pageSize ≠ 0 ∧
        i.paddrToPfn l.physStart ≤ pfn) := by
  obtain ⟨a, hs, he, rfl⟩ := h
  unfold Info.Whole Info.paddrToPfn
  have h1 : l.physStart / i.pageSize ≤ a / i.pageSize := Nat.div_le_div_right hs
  have h2 : a / i.pageSize ≤ l.physEnd / i.pageSize := Nat.div_le_div_right (Nat.le_of_lt he)
  rcases Nat.lt_or_eq_of_le h2 with hlt | heq
  · exact .inl ⟨h1, hlt⟩
  · refine .inr ⟨heq, fun h0 => ?_, h1⟩
    have hdm := Nat.div_add_mod l.physEnd i.pageSize
    have hle := Nat.mul_div_le a i.pageSize
    rw [heq] at hle
    omega

theorem mem_fileFrames {l : PtLoad} {q : Nat} :
    q ∈ i.fileFrames l ↔ i.paddrToPfn l.physStart ≤ i.maxMapnr ∧ i.paddrToPfn l.physStart ≤ q ∧
      (q < min (i.paddrToPfn l.physEnd) i.maxMapnr ∨
        (l.physEnd % i.pageSize ≠ 0 ∧ q = min (i.paddrToPfn l.physEnd) i.maxMapnr)) := by
  unfold Info.fileFrames
  dsimp only
  by_cases hmax : i.paddrToPfn l.physStart > i.maxMapnr
  · rw [if_pos hmax]
    simp only [List.not_mem_nil, false_iff]
    omega
  · rw [if_neg hmax, List.mem_range'_1]
    by_cases hfrac : l.physEnd % i.pageSize ≠ 0
    · rw [if_pos hfrac]
      omega
    · rw [if_neg hfrac]
      omega

theorem lenBitmap_half (i : Info) :
    i.lenBitmap / 2 = divideup (divideup i.maxMapnr 8) i.pageSize * i.pageSize := by
  unfold Info.lenBitmap
  rw [Nat.mul_div_cancel _ (by decide)]

theorem maxMapnr_le_room (hs : 12 ≤ i.pageShift) :
    i.maxMapnr ≤ 32768 * (i.lenBitmap / 2 / 4096) := by
  have h8 := le_divideup_mul i.maxMapnr (show 0 < 8 by decide)
  have hps := le_divideup_mul (divideup i.maxMapnr 8) (pageSize_pos i)
  have hblocks := lenBitmap_blocks hs
  rw [← lenBitmap_half] at hps
  omega

/-- The bit of `max_mapnr` has a place in the bitmap unless the bitmap fills its last page. -/
theorem maxMapnr_room (hs : 12 ≤ i.pageShift) :
    i.maxMapnr < 32768 * (i.lenBitmap / 2 / 4096) ↔ ¬ 8 * i.pageSize ∣ i.maxMapnr := by
  have hblocks := lenBitmap_blocks hs
  have hlen := lenBitmap_half i
  constructor
  · rintro hlt ⟨t, ht⟩
    have h1 : divideup i.maxMapnr 8 = i.pageSize * t := by
      rw [ht, Nat.mul_assoc, Nat.mul_comm 8, divideup_mul (by decide)]
    have h2 : divideup (i.pageSize * t) i.pageSize = t := by
      rw [Nat.mul_comm, divideup_mul (pageSize_pos i)]
    rw [h1, h2, Nat.mul_comm t] at hlen
    rw [Nat.mul_assoc] at ht
    omega
  · intro hnd
    have hne : i.maxMapnr ≠ 8 * (i.lenBitmap / 2) := by
      intro he
      rw [hlen] at he
      exact hnd ⟨_, he.trans (by ring)⟩
    have := maxMapnr_le_room hs
    omega

/-! ## Both builders -/

/-- The 1st bitmap in a new file, and in the window `c`. -/
def Info.fileBits (i : Info) : ByteFile :=
  (create1stBitmapFile i { offset := 0, file := [] }).2.1.file

def Info.windowBits (i : Info) (c : PfnCycle) (m : Int) : List UInt8 := (create1stBitmapBuffer i c m).2.buf

/-- Both builders succeed and set the bits of the covered pages below `max_mapnr`, no others. -/
structure BuildersAgree (i : Info) : Prop where
  file : (create1stBitmapFile i { offset := 0, file := [] }).1 = true
  window : ∀ c ∈ i.cycles, ∀ m, (create1stBitmapBuffer i c m).1 = true
  same : ∀ c ∈ i.cycles, ∀ m pfn, c.startPfn ≤ pfn → pfn < c.endPfn →
    isOn i.fileBits pfn = isOn (i.windowBits c m) (pfn - c.startPfn)
  covered : ∀ pfn < i.maxMapnr, (isOn i.fileBits pfn = true ↔ ∃ l ∈ i.ptLoads, i.Covers l pfn)
  file_limit : ∀ pfn, i.maxMapnr ≤ pfn → isOn i.fileBits pfn = false
  window_limit : ∀ c ∈ i.cycles, ∀ m k, i.maxMapnr ≤ c.startPfn + k →
    isOn (i.windowBits c m) k = false

/-- Every last page that is not full is past `max_mapnr`, cut off by it where the bitmap has no room
for another bit, or a page of another `PT_LOAD` too. -/
def Info.LastPagesOk (i : Info) : Prop :=
  ∀ l ∈ i.ptLoads, l.physEnd % i.pageSize ≠ 0 →
    i.paddrToPfn l.physStart ≤ i.paddrToPfn l.physEnd →
    i.maxMapnr < i.paddrToPfn l.physStart ∨
    (i.maxMapnr ≤ i.paddrToPfn l.physEnd ∧ 8 * i.pageSize ∣ i.maxMapnr) ∨
    (i.paddrToPfn l.physEnd < i.maxMapnr ∧ ∃ l' ∈ i.ptLoads, i.Whole l' (i.paddrToPfn l.physEnd))

/-- The bitmap file can hold the bits: no frame it sets is at `2 ^ 34` or above. -/
def Info.Reachable (i : Info) : Prop :=
  ∀ l ∈ i.ptLoads, i.paddrToPfn l.physStart ≤ i.maxMapnr →
    min (i.paddrToPfn l.physEnd) i.maxMapnr < 2 ^ 34

theorem fileBits_iff (hs : 12 ≤ i.pageShift) (hr : i.Reachable) :
    (create1stBitmapFile i { offset := 0, file := [] }).1 = true ∧
    ∀ q, isOn i.fileBits q = true ↔
      (∃ l ∈ i.ptLoads, q ∈ i.fileFrames l) ∧ q < 32768 * (i.lenBitmap / 2 / 4096) := by
  have hp : ∀ p ∈ i.ptLoads.flatMap i.fileFrames, p < 2 ^ 34 := by
    intro p hp
    obtain ⟨l, hl, hp⟩ := List.mem_flatMap.1 hp
    rw [mem_fileFrames] at hp
    have := hr l hl hp.1
    omega
  obtain ⟨b, m, h, hbits⟩ := create1stBitmapFile_bits hs hp
  unfold Info.fileBits
  rw [h]
  exact ⟨rfl, hbits⟩

theorem windowBits_iff (hc : c ∈ i.cycles) (m : Int) :
    (create1stBitmapBuffer i c m).1 = true ∧
    ∀ k, isOn (i.windowBits c m) k = true ↔
      c.startPfn + k < c.endPfn ∧ ∃ l ∈ i.ptLoads, i.Whole l (c.startPfn + k) := by
  obtain ⟨h8, hl, -⟩ := mem_cycles hc
  obtain ⟨w, h, hbits⟩ := createBitmapFromMemhole_bits i true h8 hl m
  unfold Info.windowBits create1stBitmapBuffer
  rw [h]
  exact ⟨rfl, hbits⟩

theorem lastPagesOk_of_agree (hs : 12 ≤ i.pageShift) (hb : 0 < i.bufsizeCyclic) (hr : i.Reachable)
    (h : BuildersAgree i) : i.LastPagesOk := by
  obtain ⟨-, hfile⟩ := fileBits_iff hs hr
  intro l hl hfrac hle
  rcases Nat.lt_or_ge i.maxMapnr (i.paddrToPfn l.physStart) with hpast | hstart
  · exact .inl hpast
  rcases Nat.lt_or_ge (i.paddrToPfn l.physEnd) i.maxMapnr with hlt | hge
  · -- the file has the last page, so the window with it has it too
    have hroom := maxMapnr_le_room hs
    have hon : isOn i.fileBits (i.paddrToPfn l.physEnd) = true :=
      (hfile _).2 ⟨⟨l, hl, mem_fileFrames.2 ⟨hstart, hle, .inr ⟨hfrac, by omega⟩⟩⟩, by omega⟩
    obtain ⟨c, hc, hcs, hce⟩ := exists_cycle hb hlt
    rw [h.same c hc 0 _ hcs hce, (windowBits_iff hc 0).2, Nat.add_sub_cancel' hcs] at hon
    exact .inr (.inr ⟨hlt, hon.2⟩)
  · -- the end was clamped to `max_mapnr` and the bit after it set
    refine .inr (.inl ⟨hge, ?_⟩)
    apply Classical.byContradiction
    intro hd
    have hon : isOn i.fileBits i.maxMapnr = true :=
      (hfile _).2 ⟨⟨l, hl, mem_fileFrames.2 ⟨hstart, by omega, .inr ⟨hfrac, by omega⟩⟩⟩,
        (maxMapnr_room hs).2 hd⟩
    rw [h.file_limit _ (Nat.le_refl _)] at hon
    cases hon

/-- A frame the file has below `max_mapnr` is a whole page of some `PT_LOAD`. -/
theorem whole_of_fileFrames (h : i.LastPagesOk) {l : PtLoad} (hl : l ∈ i.ptLoads) {q : Nat}
    (hq : q ∈ i.fileFrames l) (hlt : q < i.maxMapnr) : ∃ l' ∈ i.ptLoads, i.Whole l' q := by
  obtain ⟨hstart, hle, hend | ⟨hfrac, hend⟩⟩ := mem_fileFrames.1 hq
  · exact ⟨l, hl, hle, by omega⟩
  · obtain hpast | ⟨hge, -⟩ | ⟨-, hother⟩ := h l hl hfrac (by omega)
    · omega
    · omega
    · rwa [show q = i.paddrToPfn l.physEnd by omega]

theorem agree_of_lastPagesOk (hs : 12 ≤ i.pageShift) (hr : i.Reachable) (h : i.LastPagesOk) :
    BuildersAgree i := by
  obtain ⟨hok, hfile⟩ := fileBits_iff hs hr
  have hroom := maxMapnr_le_room hs
  have hwhole : ∀ q < i.maxMapnr,
      (isOn i.fileBits q = true ↔ ∃ l ∈ i.ptLoads, i.Whole l q) := by
    intro q hq
    rw [hfile]
    constructor
    · rintro ⟨⟨l, hl, hm⟩, -⟩
      exact whole_of_fileFrames h hl hm hq
    · rintro ⟨l, hl, hw⟩
      have hw' : i.paddrToPfn l.physStart ≤ q ∧ q < i.paddrToPfn l.physEnd := hw
      exact ⟨⟨l, hl, mem_fileFrames.2 ⟨by omega, hw'.1, .inl (by omega)⟩⟩, by omega⟩
  refine ⟨hok, fun c hc m => (windowBits_iff hc m).1, ?_, ?_, ?_, ?_⟩
  · intro c hc m pfn hcs hce
    obtain ⟨-, -, hlim⟩ := mem_cycles hc
    rw [Bool.eq_iff_iff, hwhole pfn (by omega), (windowBits_iff hc m).2, Nat.add_sub_cancel' hcs]
    exact ⟨fun h => ⟨hce, h⟩, fun h => h.2⟩
  · intro pfn hlt
    rw [hwhole pfn hlt]
    constructor
    · rintro ⟨l, hl, hw⟩
      exact ⟨l, hl, covers_of_whole hw⟩
    · rintro ⟨l, hl, hcov⟩
      obtain hw | ⟨rfl, hfrac, hle⟩ := hcov.whole_or_last
      · exact ⟨l, hl, hw⟩
      · exact whole_of_fileFrames h hl (mem_fileFrames.2 ⟨by omega, hle, .inr ⟨hfrac, by omega⟩⟩) hlt
  · intro pfn hge
    cases hon : isOn i.fileBits pfn with
    | false => rfl
    | true =>
      obtain ⟨⟨l, hl, hm⟩, hin⟩ := (hfile pfn).1 hon
      obtain ⟨hstart, hle, hend | ⟨hfrac, hend⟩⟩ := mem_fileFrames.1 hm
      · omega
      · obtain hpast | ⟨-, hd⟩ | ⟨hlt, -⟩ := h l hl hfrac (by omega)
        · omega
        · have hfull := mt (maxMapnr_room hs).1 (not_not.2 hd)
          omega
        · omega
  · intro c hc m k hge
    obtain ⟨-, -, hlim⟩ := mem_cycles hc
    cases hon : isOn (i.windowBits c m) k with
    | false => rfl
    | true =>
      have := ((windowBits_iff hc m).2 k).1 hon
      omega

end Bitmap
