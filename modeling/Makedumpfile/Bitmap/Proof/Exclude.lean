import Makedumpfile.Bitmap.Proof.Orders
import Makedumpfile.Lib.Path

/-!
# What a run of the exclusion clears

The loop over a `mem_map` goes along a path: from its first page frame on, by the block at an excluded
head and by one page elsewhere (`scanPage_step`). A window starts in the middle of the path, and what
is pending then leads to its next point (`PendAt`). So the windows together visit the path of every
`mem_map` once, and a page is cleared exactly if it is in the block of an excluded head
(`secondBitmap_spec`).

The page buffer ends with the last page of the `mem_map`. If that page is a compound head, what is
behind it in the buffer is taken for the next `struct page`; `orderAt` has it as a parameter.
-/

namespace Bitmap

open Lib

variable (m : Image) (level : Nat)

/-! ## The blocks of a mem_map -/

/-- The `struct page` behind `pfn`, with `b` behind the last page of the `mem_map`. -/
def nextPage (e : MemMap) (b : List UInt8) (pfn : Nat) : List UInt8 :=
  if pfn + 1 < e.pfnEnd then m.structPage (pfn + 1) else b

/-- The order of the block to exclude at a page of the `mem_map`. -/
def orderAt (e : MemMap) (b : List UInt8) (pfn : Nat) : Option Nat :=
  if isInSegs m pfn then
    excludeOrder m.kernel level pfn (m.structPage pfn) (nextPage m e b pfn)
  else none

/-- The number of pages the loop moves on by. -/
def blockLen (e : MemMap) (pfn : Nat) : Nat :=
  max 1 (((orderAt m level e [] pfn).map shiftOne).getD 1)

/-- The page is the head of an excluded block. -/
def IsHead (e : MemMap) (b : List UInt8) (pfn : Nat) : Prop :=
  pfn < e.pfnEnd ∧ (orderAt m level e b pfn).isSome = true

/-- The page is in an excluded block of the `mem_map`. -/
def Excluded (e : MemMap) (b : List UInt8) (pfn : Nat) : Prop :=
  Covered (blockLen m level e) (IsHead m level e b) e.pfnStart pfn

/-- The `mem_map`s are sorted and do not overlap. -/
structure MemMapsOk : Prop where
  apart : m.memMaps.Pairwise fun e f => e.pfnEnd ≤ f.pfnStart
  order : ∀ e ∈ m.memMaps, e.pfnStart ≤ e.pfnEnd
  limit : ∀ e ∈ m.memMaps, e.pfnEnd ≤ 2 ^ 52

/-- Every block that is recognised, whatever the buffer holds behind the last page, has its head and
lies inside the `mem_map`. -/
def BlocksInside : Prop :=
  ∀ e ∈ m.memMaps, e.mapped = true → ∀ pfn, e.pfnStart ≤ pfn → pfn < e.pfnEnd → ∀ b order,
    orderAt m level e b pfn = some order →
    0 < shiftOne order ∧ pfn + shiftOne order ≤ e.pfnEnd

variable {m : Image} {level : Nat} {e : MemMap} {b : List UInt8} {pfn order : Nat} {c : PfnCycle}

theorem blockLen_pos (m : Image) (level : Nat) (e : MemMap) (pfn : Nat) :
    0 < blockLen m level e pfn := by
  unfold blockLen
  omega

theorem orderAt_eq (h : pfn + 1 < e.pfnEnd) (b b' : List UInt8) :
    orderAt m level e b pfn = orderAt m level e b' pfn := by
  unfold orderAt nextPage
  rw [if_pos h, if_pos h]

section Inside

variable (hb : BlocksInside m level) (he : e ∈ m.memMaps) (hm : e.mapped = true)
  (h1 : e.pfnStart ≤ pfn) (h2 : pfn < e.pfnEnd)

include hb he hm h1 h2

theorem shiftOne_eq_blockLen (ho : orderAt m level e b pfn = some order) :
    shiftOne order = blockLen m level e pfn := by
  obtain ⟨hpos, hin⟩ := hb e he hm pfn h1 h2 b order ho
  unfold blockLen
  by_cases hlast : pfn + 1 < e.pfnEnd
  · rw [orderAt_eq hlast [] b, ho]
    simp only [Option.map_some, Option.getD_some]
    omega
  · -- at the last page every block has one page
    cases ho' : orderAt m level e [] pfn with
    | none =>
      simp only [Option.map_none, Option.getD_none]
      omega
    | some order' =>
      obtain ⟨hpos', hin'⟩ := hb e he hm pfn h1 h2 [] order' ho'
      simp only [Option.map_some, Option.getD_some]
      omega

theorem blockLen_of_none (ho : orderAt m level e b pfn = none) : blockLen m level e pfn = 1 := by
  cases ho' : orderAt m level e [] pfn with
  | none => simp [blockLen, ho']
  | some order =>
    obtain ⟨hpos, hin⟩ := hb e he hm pfn h1 h2 [] order ho'
    by_cases hlast : pfn + 1 < e.pfnEnd
    · rw [orderAt_eq hlast [] b, ho] at ho'
      cases ho'
    · simp only [blockLen, ho', Option.map_some, Option.getD_some]
      omega

theorem blockLen_inside : pfn + blockLen m level e pfn ≤ e.pfnEnd := by
  cases ho : orderAt m level e [] pfn with
  | none =>
    rw [blockLen_of_none hb he hm h1 h2 ho]
    exact h2
  | some order =>
    rw [← shiftOne_eq_blockLen hb he hm h1 h2 ho]
    exact (hb e he hm pfn h1 h2 [] order ho).2

end Inside

/-- A block of a `mem_map` is inside it. -/
theorem Excluded.mem (hb : BlocksInside m level) (he : e ∈ m.memMaps) (hm : e.mapped = true)
    (h : Excluded m level e b pfn) : e.pfnStart ≤ pfn ∧ pfn < e.pfnEnd := by
  obtain ⟨p, hp, h1, h2, h3, -⟩ := h
  have hstart := hp.start_le (blockLen_pos m level e)
  have := blockLen_inside hb he hm hstart h3
  omega

/-! ## The page buffer -/

/-- The last page of a block of `PGMM_CACHED` is not looked at as a compound head. -/
theorem excludeOrder_last {k : Kernel} {page next next' : List UInt8}
    (h : pfn % pgmmCached = pgmmCached - 1) :
    excludeOrder k level pfn page next = excludeOrder k level pfn page next' := by
  have hno : ∀ n, compoundOf k pfn (readPage k page) n = (0, 0) := by
    intro n
    unfold compoundOf
    rw [if_neg (by omega)]
  unfold excludeOrder
  dsimp only
  rw [hno, hno]

/-- The slot behind the last page of a `mem_map`. -/
def lastSlot (e : MemMap) (pc : PageCache) : List UInt8 :=
  pc.entry ((e.pfnEnd - 1) % pgmmCached + 1)

variable (m) in
/-- The buffer holds the pages it says, up to the end of their block or of the `mem_map`. -/
structure CacheOk (e : MemMap) (pc : PageCache) : Prop where
  entry : ∀ q, pc.readStart ≤ q → q ≤ pc.readEnd → pc.entry (q % pgmmCached) = m.structPage q
  block : pc.readStart ≤ pc.readEnd → pc.readStart / pgmmCached = pc.readEnd / pgmmCached ∧
    (pc.readEnd + 1 = e.pfnEnd ∨ pc.readEnd % pgmmCached = pgmmCached - 1)

theorem fetch_ok {pc pc' : PageCache} (hpfn : pfn < e.pfnEnd) (h : CacheOk m e pc)
    (hf : fetch m e.pfnEnd pfn pc = some pc') :
    CacheOk m e pc' ∧ pc'.readStart ≤ pfn ∧ pfn ≤ pc'.readEnd ∧
      (pfn / pgmmCached = (e.pfnEnd - 1) / pgmmCached → lastSlot e pc' = lastSlot e pc) := by
  unfold fetch at hf
  split at hf
  case isTrue =>
    dsimp only at hf
    generalize hn : (if roundup (pfn + 1) pgmmCached < e.pfnEnd then pgmmCached - pfn % pgmmCached
      else e.pfnEnd - pfn) = n at hf
    have hfacts : 0 < n ∧ pfn % 512 + n ≤ 512 ∧
        (pfn + n = e.pfnEnd ∨ pfn % 512 + n = 512) ∧ pfn + n ≤ e.pfnEnd := by
      unfold roundup pgmmCached at hn
      split at hn <;> omega
    split at hf
    case isTrue =>
      cases hf
      refine ⟨⟨fun q h1 h2 => ?_, fun _ => ?_⟩, Nat.le_refl _, ?_, fun hblock => ?_⟩
      · dsimp only at h1 h2 ⊢
        unfold pgmmCached
        rw [if_pos (by omega), show pfn + (q % 512 - pfn % 512) = q by omega]
      · dsimp only
        unfold pgmmCached
        omega
      · dsimp only
        omega
      · unfold lastSlot
        unfold pgmmCached at hblock ⊢
        dsimp only
        rw [if_neg (by omega)]
    case isFalse => cases hf
  case isFalse hin =>
    cases hf
    exact ⟨h, by omega, by omega, fun _ => rfl⟩

/-- What the tests see in the buffer. -/
theorem pageOrder_eq {pc : PageCache} (hpfn : pfn < e.pfnEnd) (h : CacheOk m e pc)
    (h1 : pc.readStart ≤ pfn) (h2 : pfn ≤ pc.readEnd) (hs : isInSegs m pfn = true) :
    pageOrder m level pfn pc = orderAt m level e (lastSlot e pc) pfn := by
  unfold pageOrder orderAt
  rw [if_pos hs, h.entry pfn h1 h2]
  by_cases hlast : pfn % pgmmCached = pgmmCached - 1
  · exact excludeOrder_last hlast
  · congr 1
    obtain ⟨hblock, hend⟩ := h.block (Nat.le_trans h1 h2)
    unfold nextPage
    split
    case isTrue hnext =>
      have hq : pfn + 1 ≤ pc.readEnd := by
        unfold pgmmCached at *
        omega
      rw [← h.entry (pfn + 1) (by omega) hq]
      congr 1
      unfold pgmmCached at *
      omega
    case isFalse hnext =>
      unfold lastSlot
      rw [show e.pfnEnd - 1 = pfn by omega]

/-! ## One round -/

theorem isCyclicRegion_iff {q : Nat} :
    isCyclicRegion q c = true ↔ c.startPfn ≤ q ∧ q < c.endPfn := by
  unfold isCyclicRegion
  rw [Bool.and_eq_true, decide_eq_true_eq, decide_eq_true_eq]

/-- A bit that is on is in the window. -/
theorem mem_of_isDumpable {buf : List UInt8} {q : Nat} (h : isDumpableBuffer buf q c = true) :
    c.startPfn ≤ q ∧ q < c.endPfn := by
  unfold isDumpableBuffer at h
  rw [Bool.and_eq_true] at h
  exact isCyclicRegion_iff.mp h.1

/-- The block ahead, or the one page, is cleared as far as it is in the window. -/
def Clears (m : Image) (level : Nat) (e : MemMap) (b : List UInt8) (c : PfnCycle) (pfn : Nat)
    (buf buf' : List UInt8) : Prop :=
  ∀ q, isDumpableBuffer buf' q c = true ↔ isDumpableBuffer buf q c = true ∧
    ¬ (pfn ≤ q ∧ q < pfn + blockLen m level e pfn ∧ IsHead m level e b pfn)

/-- What waits behind the window is as before, or the rest of the block. -/
def Goes (m : Image) (level : Nat) (e : MemMap) (c : PfnCycle) (pfn : Nat) (s s' : Scan) : Prop :=
  (blockLen m level e pfn = 1 ∧ s'.excludePfnStart = s.excludePfnStart ∧
      s'.excludePfnEnd = s.excludePfnEnd) ∨
    (s'.excludePfnStart = c.endPfn ∧ s'.excludePfnEnd = pfn + blockLen m level e pfn)

/-- The excluded block of a head. -/
theorem excludeBlock_head {s : Scan} (hpfn : pfn < 2 ^ 52)
    (hin : pfn + blockLen m level e pfn ≤ e.pfnEnd) (hend : e.pfnEnd ≤ 2 ^ 52)
    (hshift : shiftOne order = blockLen m level e pfn)
    (hhead : IsHead m level e b pfn) (hl : c.endPfn ≤ c.startPfn + 8 * s.buf.length) :
    (excludeBlock pfn order c s).2 = pfn + blockLen m level e pfn ∧
      Clears m level e b c pfn s.buf (excludeBlock pfn order c s).1.buf ∧
      Goes m level e c pfn s (excludeBlock pfn order c s).1 := by
  unfold excludeBlock Clears Goes
  rw [hshift]
  by_cases hone : blockLen m level e pfn = 1
  · rw [if_pos hone, hone]
    refine ⟨u64_of_lt (by omega), fun q => ?_, .inl ⟨rfl, rfl, rfl⟩⟩
    dsimp only
    rw [isDumpable_clearBit hl, Bool.and_eq_true, decide_eq_true_eq]
    refine and_congr_right fun _ => ?_
    constructor
    · rintro hne ⟨h1, h2, -⟩
      omega
    · rintro hno rfl
      exact hno ⟨Nat.le_refl _, Nat.lt_succ_self _, hhead⟩
  · rw [if_neg hone, u64_of_lt (by omega)]
    refine ⟨rfl, fun q => ?_, .inr ⟨rfl, rfl⟩⟩
    unfold excludeRange
    dsimp only
    rw [isDumpable_clearRange q _ _ _ hl, Bool.and_eq_true, Bool.not_eq_true',
      decide_eq_false_iff_not]
    refine and_congr_right fun hq => not_congr ?_
    have hwin := mem_of_isDumpable hq
    constructor
    · intro h
      exact ⟨h.1, by omega, hhead⟩
    · rintro ⟨h1, h2, -⟩
      omega

variable (m) in
/-- All struct pages can be read. -/
def Readable : Prop := ∀ pfn n, m.readOk pfn n = true

theorem fetch_readable (hr : Readable m) (pfnEnd : Nat) (pc : PageCache) :
    ∃ pc', fetch m pfnEnd pfn pc = some pc' := by
  unfold fetch
  split
  · dsimp only
    rw [if_pos (hr _ _)]
    exact ⟨_, rfl⟩
  · exact ⟨_, rfl⟩

/-- A round outside the window. -/
theorem scanPage_outside {l : PageLoop} (h : ¬ (c.startPfn ≤ l.pfn ∧ l.pfn < c.endPfn))
    (hpfn : l.pfn < 2 ^ 52) :
    scanPage m level c e.pfnEnd l = some { l with pfn := l.pfn + 1 } := by
  unfold scanPage
  rw [if_pos, u64_of_lt (by omega)]
  rw [← isCyclicRegion_iff, Bool.not_eq_true] at h
  rw [h]
  rfl

/-- **A round in the window** goes on by the block ahead. `b` stands for what is in the buffer behind
the last page. -/
theorem scanPage_step (hok : MemMapsOk m) (hb : BlocksInside m level) (hr : Readable m)
    (he : e ∈ m.memMaps) (hm : e.mapped = true) {l : PageLoop} (hcache : CacheOk m e l.cache)
    (hl : c.endPfn ≤ c.startPfn + 8 * l.scan.buf.length) (h1 : e.pfnStart ≤ l.pfn)
    (h2 : l.pfn < e.pfnEnd) (hwin : c.startPfn ≤ l.pfn ∧ l.pfn < c.endPfn) :
    ∃ cache scan b, scanPage m level c e.pfnEnd l =
        some { pfn := l.pfn + blockLen m level e l.pfn, cache, scan } ∧
      CacheOk m e cache ∧ scan.buf.length = l.scan.buf.length ∧
      (l.pfn / pgmmCached = (e.pfnEnd - 1) / pgmmCached →
        lastSlot e cache = lastSlot e l.cache ∧ b = lastSlot e l.cache) ∧
      (∀ b', (l.pfn + 1 = e.pfnEnd → b' = b) → Clears m level e b' c l.pfn l.scan.buf scan.buf) ∧
      Goes m level e c l.pfn l.scan scan := by
  have hend := hok.limit e he
  have hin := blockLen_inside hb he hm h1 h2
  have hcyc := isCyclicRegion_iff.mpr hwin
  -- nothing is excluded at this page
  have hkeep : ∀ b', orderAt m level e b' l.pfn = none →
      blockLen m level e l.pfn = 1 ∧ Clears m level e b' c l.pfn l.scan.buf l.scan.buf ∧
        Goes m level e c l.pfn l.scan l.scan := by
    intro b' ho
    have hone := blockLen_of_none hb he hm h1 h2 ho
    refine ⟨hone, fun q => (and_iff_left ?_).symm, .inl ⟨hone, rfl, rfl⟩⟩
    rintro ⟨-, -, -, hsome⟩
    rw [ho] at hsome
    cases hsome
  unfold scanPage
  rw [hcyc, Bool.not_true, if_neg Bool.false_ne_true]
  by_cases hs : isInSegs m l.pfn = true
  · rw [hs, Bool.not_true, if_neg Bool.false_ne_true]
    obtain ⟨cache, hf⟩ : ∃ cache, fetch m e.pfnEnd l.pfn l.cache = some cache :=
      fetch_readable hr e.pfnEnd l.cache
    obtain ⟨hcache', hs1, hs2, hslot⟩ := fetch_ok h2 hcache hf
    have horder : pageOrder m level l.pfn cache = orderAt m level e (lastSlot e cache) l.pfn :=
      pageOrder_eq h2 hcache' hs1 hs2 hs
    rw [hf]
    dsimp only
    rw [horder]
    -- the tests see the same with another slot, but at the last page
    have hsame : ∀ b', (l.pfn + 1 = e.pfnEnd → b' = lastSlot e cache) →
        orderAt m level e b' l.pfn = orderAt m level e (lastSlot e cache) l.pfn := by
      intro b' hb'
      by_cases hlast : l.pfn + 1 = e.pfnEnd
      · rw [hb' hlast]
      · exact orderAt_eq (by omega) _ _
    cases ho : orderAt m level e (lastSlot e cache) l.pfn with
    | none =>
      refine ⟨cache, l.scan, lastSlot e cache, ?_, hcache', rfl, fun h => ⟨hslot h, hslot h⟩, ?_,
        (hkeep _ ho).2.2⟩
      · dsimp only
        rw [(hkeep _ ho).1, u64_of_lt (by omega)]
      · intro b' hb'
        exact (hkeep b' ((hsame b' hb').trans ho)).2.1
    | some order =>
      have hshift := shiftOne_eq_blockLen hb he hm h1 h2 ho
      have hhead : ∀ b', (l.pfn + 1 = e.pfnEnd → b' = lastSlot e cache) →
          IsHead m level e b' l.pfn := by
        intro b' hb'
        exact ⟨h2, by rw [hsame b' hb', ho]; rfl⟩
      have hblock := fun b' hb' => excludeBlock_head (b := b') (by omega) hin hend hshift
        (hhead b' hb') hl
      obtain ⟨hnext, -, hgoes⟩ := hblock (lastSlot e cache) fun _ => rfl
      refine ⟨cache, (excludeBlock l.pfn order c l.scan).1, lastSlot e cache, ?_, hcache',
        length_excludeBlock _ _ _ _, fun h => ⟨hslot h, hslot h⟩, ?_, hgoes⟩
      · dsimp only
        rw [hnext]
      · intro b' hb'
        exact (hblock b' hb').2.1
  · have ho : ∀ b', orderAt m level e b' l.pfn = none := by
      intro b'
      unfold orderAt
      rw [if_neg hs]
    have hs' : (!isInSegs m l.pfn) = true := by
      rw [Bool.not_eq_true'] at *
      simpa using hs
    rw [if_pos hs']
    refine ⟨l.cache, l.scan, lastSlot e l.cache, ?_, hcache, rfl, fun _ => ⟨rfl, rfl⟩, ?_,
      (hkeep [] (ho [])).2.2⟩
    · rw [(hkeep [] (ho [])).1, u64_of_lt (by omega)]
    · intro b' _
      exact (hkeep b' (ho b')).2.1

/-! ## The loop over a window -/

/-- A block of the `mem_map` is around `x` and ends at `z`. -/
structure Waits (m : Image) (level : Nat) (e : MemMap) (x z : Nat) : Prop where
  mapped : e.mapped = true
  lt_end : x < e.pfnEnd
  first : FirstFrom (blockLen m level e) e.pfnStart x z
  lt : x < z

def Scan.waitsFor (s : Scan) (x z : Nat) : Prop := s.excludePfnStart = x ∧ s.excludePfnEnd = z

theorem Scan.waitsFor.pending {s : Scan} {x z : Nat} (h : s.waitsFor x z) (hlt : x < z) :
    s.pending := by
  unfold Scan.pending
  rw [h.1, h.2]
  exact hlt

/-- At `x` the rest of the block around it is pending, and nothing else. -/
structure PendsAt (m : Image) (level : Nat) (e : MemMap) (x : Nat) (s : Scan) : Prop where
  waits : ∀ z, Waits m level e x z → s.waitsFor x z
  pending : s.pending → ∃ z, Waits m level e x z ∧ s.waitsFor x z

theorem Waits.unique {x z z' : Nat} (h : Waits m level e x z) (h' : Waits m level e x z') : z = z' :=
  h.first.unique (blockLen_pos m level e) h'.first

theorem Waits.start_lt {x z : Nat} (h : Waits m level e x z) : e.pfnStart < x :=
  h.first.start_lt (blockLen_pos m level e) h.lt

theorem Waits.le_end (hb : BlocksInside m level) (he : e ∈ m.memMaps) {x z : Nat}
    (h : Waits m level e x z) : z ≤ e.pfnEnd :=
  h.first.le_end (blockLen_pos m level e)
    (fun _ h1 h2 => blockLen_inside hb he h.mapped h1 h2) (Nat.le_of_lt h.lt_end)

/-- Nothing waits at a point of the path. -/
theorem not_waits_of_onPath {x z : Nat} (h : OnPath (blockLen m level e) e.pfnStart x) :
    ¬ Waits m level e x z := by
  intro hw
  have hx : FirstFrom (blockLen m level e) e.pfnStart x x :=
    ⟨h, Nat.le_refl _, fun hlt => absurd hlt (Nat.lt_irrefl _)⟩
  have := hw.lt
  rw [hw.first.unique (blockLen_pos m level e) hx] at this
  exact absurd this (Nat.lt_irrefl _)

/-- The pages from `pfn` on that are cleared. -/
def ClearsFrom (m : Image) (level : Nat) (e : MemMap) (b : List UInt8) (c : PfnCycle) (pfn : Nat)
    (buf buf' : List UInt8) : Prop :=
  ∀ q, isDumpableBuffer buf' q c = true ↔ isDumpableBuffer buf q c = true ∧
    ¬ (pfn ≤ q ∧ Excluded m level e b q)

/-- The block at a point of the path, and the pages behind it. -/
theorem ClearsFrom.of_clears {buf buf₁ buf₂ : List UInt8}
    (hpath : OnPath (blockLen m level e) e.pfnStart pfn) (h : Clears m level e b c pfn buf buf₁)
    (h' : ClearsFrom m level e b c (pfn + blockLen m level e pfn) buf₁ buf₂) :
    ClearsFrom m level e b c pfn buf buf₂ := by
  intro q
  rw [h' q, h q, and_assoc]
  refine and_congr_right fun _ => ?_
  have hcov : pfn ≤ q → q < pfn + blockLen m level e pfn →
      (Excluded m level e b q ↔ IsHead m level e b pfn) :=
    covered_iff (blockLen_pos m level e) hpath
  constructor
  · rintro ⟨h1, h2⟩ ⟨hle, hex⟩
    by_cases hlt : q < pfn + blockLen m level e pfn
    · exact h1 ⟨hle, hlt, (hcov hle hlt).mp hex⟩
    · exact h2 ⟨Nat.le_of_not_lt hlt, hex⟩
  · intro hno
    constructor
    · rintro ⟨hle, hlt, hhead⟩
      exact hno ⟨hle, (hcov hle hlt).mpr hhead⟩
    · rintro ⟨hle, hex⟩
      exact hno ⟨by omega, hex⟩

/-- **The loop in a window**, from a point of the path or before the window. `b` is what the buffer
holds behind the last page, if that is in the window. -/
theorem scanPages_window (hok : MemMapsOk m) (hb : BlocksInside m level) (hr : Readable m)
    (he : e ∈ m.memMaps) (hm : e.mapped = true) (fuel : Nat) (l : PageLoop)
    (hfuel : e.pfnEnd - l.pfn < fuel) (hcache : CacheOk m e l.cache)
    (hl : c.endPfn ≤ c.startPfn + 8 * l.scan.buf.length) (h1 : e.pfnStart ≤ l.pfn)
    (hpath : max l.pfn c.startPfn < min c.endPfn e.pfnEnd →
      ¬ l.scan.pending ∧ OnPath (blockLen m level e) e.pfnStart (max l.pfn c.startPfn)) :
    ∃ s b, scanPages m level c e.pfnEnd fuel l = .ok s ∧
      s.buf.length = l.scan.buf.length ∧
      (c.startPfn / pgmmCached = (e.pfnEnd - 1) / pgmmCached → b = lastSlot e l.cache) ∧
      (∀ b', (l.pfn < e.pfnEnd → c.startPfn < e.pfnEnd → e.pfnEnd ≤ c.endPfn → b' = b) →
        ClearsFrom m level e b' c l.pfn l.scan.buf s.buf) ∧
      (max l.pfn c.startPfn < min c.endPfn e.pfnEnd → PendsAt m level e c.endPfn s) ∧
      (¬ max l.pfn c.startPfn < min c.endPfn e.pfnEnd → s = l.scan) := by
  have hend := hok.limit e he
  induction fuel generalizing l with
  | zero => exact absurd hfuel (Nat.not_lt_zero _)
  | succ fuel ih =>
    unfold scanPages
    by_cases h2 : l.pfn < e.pfnEnd
    · rw [if_pos h2]
      by_cases hwin : c.startPfn ≤ l.pfn ∧ l.pfn < c.endPfn
      · have hmax : max l.pfn c.startPfn = l.pfn := by omega
        obtain ⟨hnp, hon⟩ := hpath (by omega)
        rw [hmax] at hon
        obtain ⟨cache, scan, b₁, hstep, hcache', hlen, hslot, hclears, hgoes⟩ :=
          scanPage_step hok hb hr he hm hcache hl h1 h2 hwin
        have hin := blockLen_inside hb he hm h1 h2
        have hpos := blockLen_pos m level e l.pfn
        -- what is pending goes on to the next point of the path
        have hnext : l.pfn + blockLen m level e l.pfn ≤ c.endPfn → ¬ scan.pending := by
          intro hle
          rcases hgoes with ⟨-, h3, h4⟩ | ⟨h3, h4⟩
          · unfold Scan.pending at hnp ⊢
            rwa [h3, h4]
          · unfold Scan.pending
            omega
        obtain ⟨s, b₂, hrun, hslen, hslot₂, hclears₂, hpend₂, hsame₂⟩ :=
          ih { pfn := l.pfn + blockLen m level e l.pfn, cache, scan } (by dsimp only; omega) hcache'
            (by rw [hlen]; exact hl) (by dsimp only; omega) (by
              dsimp only
              intro hlt
              refine ⟨hnext (by omega), ?_⟩
              rw [show max (l.pfn + blockLen m level e l.pfn) c.startPfn =
                l.pfn + blockLen m level e l.pfn by omega]
              exact hon.next)
        dsimp only at hslen hslot₂ hclears₂ hpend₂ hsame₂
        rw [hstep]
        refine ⟨s, if l.pfn + 1 = e.pfnEnd then b₁ else b₂, hrun, hslen.trans hlen, fun hsl => ?_,
          fun b' hb' => ?_, fun _ => ?_, fun hno => absurd (by omega) hno⟩
        · have hblock : l.pfn / pgmmCached = (e.pfnEnd - 1) / pgmmCached := by
            unfold pgmmCached at hsl ⊢
            omega
          split
          · exact (hslot hblock).2
          · exact (hslot₂ hsl).trans (hslot hblock).1
        · refine ClearsFrom.of_clears hon (hclears b' fun hlast => ?_) (hclears₂ b' fun h3 h4 h5 => ?_)
          · rw [hb' h2 (by omega) (by omega), if_pos hlast]
          · rw [hb' h2 h4 h5, if_neg (by omega)]
        · by_cases hlt : l.pfn + blockLen m level e l.pfn < min c.endPfn e.pfnEnd
          · exact hpend₂ (by omega)
          · rw [hsame₂ (by omega)]
            by_cases hover : c.endPfn < l.pfn + blockLen m level e l.pfn
            · have hw : Waits m level e c.endPfn (l.pfn + blockLen m level e l.pfn) :=
                ⟨hm, by omega, ⟨hon.next, Nat.le_of_lt hover, fun _ => ⟨l.pfn, hon, hwin.2, rfl⟩⟩,
                  hover⟩
              rcases hgoes with ⟨hone, -, -⟩ | hgoes
              · omega
              · exact ⟨fun z hz => hz.unique hw ▸ hgoes, fun _ => ⟨_, hw, hgoes⟩⟩
            · refine ⟨fun z hz => ?_, fun hp => absurd hp (hnext (by omega))⟩
              have he' := hz.lt_end
              have heq : l.pfn + blockLen m level e l.pfn = c.endPfn := by omega
              exact absurd hz (not_waits_of_onPath (heq ▸ hon.next))
      · rw [scanPage_outside hwin (by omega)]
        dsimp only
        have hmax : max (l.pfn + 1) c.startPfn < min c.endPfn e.pfnEnd ↔
            max l.pfn c.startPfn < min c.endPfn e.pfnEnd := by omega
        obtain ⟨s, b₂, hrun, hslen, hslot₂, hclears₂, hpend₂, hsame₂⟩ :=
          ih { l with pfn := l.pfn + 1 } (by dsimp only; omega) hcache hl (by dsimp only; omega) (by
            dsimp only
            intro hlt
            have hsame : max (l.pfn + 1) c.startPfn = max l.pfn c.startPfn := by omega
            rw [hsame]
            exact hpath (hmax.mp hlt))
        dsimp only at hslen hslot₂ hclears₂ hpend₂ hsame₂
        rw [hmax] at hpend₂ hsame₂
        refine ⟨s, b₂, hrun, hslen, hslot₂, fun b' hb' q => ?_, hpend₂, hsame₂⟩
        rw [hclears₂ b' (fun _ => hb' h2) q]
        refine and_congr_right fun hq => not_congr (and_congr_left fun _ => ?_)
        have hqwin := mem_of_isDumpable hq
        omega
    · rw [if_neg h2]
      refine ⟨l.scan, lastSlot e l.cache, rfl, rfl, fun _ => rfl, fun b' _ q => ?_,
        fun hlt => absurd hlt (by omega), fun _ => rfl⟩
      refine (and_iff_left ?_).symm
      rintro ⟨hle, hex⟩
      have := (hex.mem hb he hm).2
      omega

end Bitmap
