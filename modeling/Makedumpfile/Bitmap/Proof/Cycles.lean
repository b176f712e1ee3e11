import Makedumpfile.Bitmap.Proof.Windows

/-!
# The size of the windows

The 2nd bitmap does not depend on the size of the windows, but for one page of every `mem_map`: when the
last one is a compound head, its order and destructor are taken from what happens to be in the page
buffer behind it (`same_for_all_cycles_iff`).
-/

namespace Bitmap

open Lib

variable {m : Image} {level : Nat} {elf : Bool} {e : MemMap}

variable (m level elf) in
/-- **The size of the windows does not matter**: with two sizes, whatever `malloc` leaves in the page
buffers, both runs end with the same bitmap. -/
def SameForAllCycles : Prop :=
  ∀ bufsize₁ bufsize₂, 0 < bufsize₁ → 0 < bufsize₂ →
    ∀ junk₁ junk₂ : PfnCycle → MemMap → Nat → List UInt8, ∃ n, ∀ fuel ≥ n, ∃ ws₁ ws₂,
      secondBitmap m elf level bufsize₁ fuel junk₁ = .ok ws₁ ∧
      secondBitmap m elf level bufsize₂ fuel junk₂ = .ok ws₂ ∧
      ∀ pfn, dumpable ws₁ pfn = dumpable ws₂ pfn

variable (m level elf) in
/-- The page is dumpable unless its `struct page` tells otherwise. -/
def KeptOtherwise (pfn : Nat) : Prop :=
  pfn < m.maxMapnr ∧ HasMemory m pfn ∧ ¬ FreeDropped m level pfn ∧ ¬ ZeroDropped m level elf pfn

variable (m level elf) in
/-- Whether the last page of a `mem_map` is excluded does not depend on what is behind it in the page
buffer, unless it is in a block that is excluded at another page, or not dumpable anyway. -/
def LastPagesDecided : Prop :=
  wantsPages m level = true → ∀ e ∈ m.memMaps, e.mapped = true → e.pfnStart < e.pfnEnd →
    OnPath (blockLen m level e) e.pfnStart (e.pfnEnd - 1) →
    KeptOtherwise m level elf (e.pfnEnd - 1) →
    ∀ b b', (orderAt m level e b (e.pfnEnd - 1)).isSome = true →
      (orderAt m level e b' (e.pfnEnd - 1)).isSome = true

/-- `mem_map`s with a common page are the same. -/
theorem MemMapsOk.eq_of_mem (hok : MemMapsOk m) {f : MemMap} (he : e ∈ m.memMaps)
    (hf : f ∈ m.memMaps) {q : Nat} (h1 : e.pfnStart ≤ q) (h2 : q < e.pfnEnd) (h3 : f.pfnStart ≤ q)
    (h4 : q < f.pfnEnd) : e = f := by
  have hpw : m.memMaps.Pairwise fun e f =>
      e = f ∨ e.pfnEnd ≤ f.pfnStart ∨ f.pfnEnd ≤ e.pfnStart :=
    hok.apart.imp fun h => .inr (.inl h)
  have hflip : m.memMaps.Pairwise fun e f =>
      f = e ∨ f.pfnEnd ≤ e.pfnStart ∨ e.pfnEnd ≤ f.pfnStart :=
    hok.apart.imp fun h => .inr (.inr h)
  rcases hpw.forall_of_forall_of_flip (fun _ _ => .inl rfl) hflip he hf with h | h | h
  · exact h
  · omega
  · omega

/-- A page that is not the last one is excluded or not, whatever is in the buffer. -/
theorem Excluded.congr (hb : BlocksInside m level) (he : e ∈ m.memMaps) (hm : e.mapped = true)
    {b b' : List UInt8} {q : Nat} (hlast : q = e.pfnEnd - 1 →
      OnPath (blockLen m level e) e.pfnStart q → (orderAt m level e b q).isSome = true →
      (orderAt m level e b' q).isSome = true)
    (h : Excluded m level e b q) : Excluded m level e b' q := by
  obtain ⟨p, hp, h1, h2, hlt, hsome⟩ := h
  refine ⟨p, hp, h1, h2, hlt, ?_⟩
  have hstart := hp.start_le (blockLen_pos m level e)
  have hin := blockLen_inside hb he hm hstart hlt
  by_cases hl : p + 1 < e.pfnEnd
  · rwa [orderAt_eq hl b' b]
  · obtain rfl : q = p := by omega
    exact hlast (by omega) hp hsome

/-- What is kept depends on the buffer at the last pages only. -/
theorem Kept.congr (hb : BlocksInside m level) (hlast : LastPagesDecided m level elf)
    {b b' : MemMap → List UInt8} {pfn : Nat} (hpfn : pfn < m.maxMapnr)
    (h : Kept m level elf b pfn) : Kept m level elf b' pfn := by
  obtain ⟨hmem, hno, hfree, hzero⟩ := h
  refine ⟨hmem, ?_, hfree, hzero⟩
  rintro ⟨hw, e, he, hm, hex⟩
  refine hno ⟨hw, e, he, hm, hex.congr hb he hm fun hq hpath hsome => ?_⟩
  have hrange := hex.mem hb he hm
  subst hq
  exact hlast hw e he hm (by omega) hpath ⟨hpfn, hmem, hfree, hzero⟩ _ _ hsome

theorem sameForAllCycles_of_decided (hok : MemMapsOk m) (hb : BlocksInside m level) (hr : ImageOk m)
    (hlast : LastPagesDecided m level elf) : SameForAllCycles m level elf := by
  intro bufsize₁ bufsize₂ hpos₁ hpos₂ junk₁ junk₂
  refine ⟨2 ^ 52 + 1, fun fuel hfuel => ?_⟩
  have hfuel' : ∀ e ∈ m.memMaps, e.pfnEnd < fuel := fun e he => by
    have := hok.limit e he
    omega
  obtain ⟨ws₁, b₁, hrun₁, hok₁⟩ := secondBitmap_spec hok (fun _ => hb) hr hpos₁ hfuel' elf junk₁
  obtain ⟨ws₂, b₂, hrun₂, hok₂⟩ := secondBitmap_spec hok (fun _ => hb) hr hpos₂ hfuel' elf junk₂
  refine ⟨ws₁, ws₂, hrun₁, hrun₂, fun pfn => ?_⟩
  rw [Bool.eq_iff_iff, hok₁.bits b₁ (fun _ _ _ => rfl), hok₂.bits b₂ fun _ _ _ => rfl]
  exact and_congr_right fun hpfn => ⟨.congr hb hlast hpfn.2, .congr hb hlast hpfn.2⟩

/-- In windows of eight pages the last page of a `mem_map` is looked at with a new buffer. -/
theorem exists_lastBlock (hlt : e.pfnStart < e.pfnEnd) (hmax : e.pfnEnd - 1 < m.maxMapnr) :
    ∃ c ∈ (m.info 1).cycles, InLastBlock c e := by
  obtain ⟨c, hc, h1, h2⟩ := exists_cycle (i := m.info 1) Nat.one_pos hmax
  obtain ⟨h8, hlen, -⟩ := mem_cycles hc
  have hlen' : c.endPfn ≤ c.startPfn + 8 * 1 := hlen
  refine ⟨c, hc, ⟨hlt, by omega, by omega⟩, ?_⟩
  unfold pgmmCached
  omega

/-- The last page is excluded exactly if the tests say so. -/
theorem kept_last_iff (hok : MemMapsOk m) (hb : BlocksInside m level) (hw : wantsPages m level = true)
    (he : e ∈ m.memMaps) (hm : e.mapped = true) (hlt : e.pfnStart < e.pfnEnd)
    (hpath : OnPath (blockLen m level e) e.pfnStart (e.pfnEnd - 1))
    (hkept : KeptOtherwise m level elf (e.pfnEnd - 1)) (b : MemMap → List UInt8) :
    Kept m level elf b (e.pfnEnd - 1) ↔ ¬ (orderAt m level e (b e) (e.pfnEnd - 1)).isSome = true := by
  obtain ⟨-, hmem, hfree, hzero⟩ := hkept
  have hcov : Excluded m level e (b e) (e.pfnEnd - 1) ↔ IsHead m level e (b e) (e.pfnEnd - 1) :=
    covered_iff (blockLen_pos m level e) hpath (Nat.le_refl _)
      (Nat.lt_add_of_pos_right (blockLen_pos m level e _))
  constructor
  · intro h hsome
    exact h.2.1 ⟨hw, e, he, hm, hcov.mpr ⟨by omega, hsome⟩⟩
  · intro hno
    refine ⟨hmem, ?_, hfree, hzero⟩
    rintro ⟨-, f, hf, hfm, hex⟩
    have hrange := hex.mem hb hf hfm
    obtain rfl := hok.eq_of_mem he hf (by omega) (by omega) hrange.1 hrange.2
    exact hno (hcov.mp hex).2

theorem decided_of_sameForAllCycles (hok : MemMapsOk m) (hb : BlocksInside m level) (hr : ImageOk m)
    (h : SameForAllCycles m level elf) : LastPagesDecided m level elf := by
  intro hw e he hm hlt hpath hkept b b' hsome
  -- windows of eight pages, with `b` or `b'` all over the new buffer
  obtain ⟨n, hall⟩ := h 1 1 Nat.one_pos Nat.one_pos (fun _ _ _ => b) fun _ _ _ => b'
  obtain ⟨ws₁, ws₂, hrun₁, hrun₂, hsame⟩ := hall (max n (2 ^ 52 + 1)) (Nat.le_max_left _ _)
  have hfuel : ∀ e ∈ m.memMaps, e.pfnEnd < max n (2 ^ 52 + 1) := fun e he => by
    have := hok.limit e he
    omega
  obtain ⟨ws₁', b₁, hrun₁', hok₁⟩ :=
    secondBitmap_spec hok (fun _ => hb) hr Nat.one_pos hfuel elf fun _ _ _ => b
  obtain ⟨ws₂', b₂, hrun₂', hok₂⟩ :=
    secondBitmap_spec hok (fun _ => hb) hr Nat.one_pos hfuel elf fun _ _ _ => b'
  cases hrun₁.symm.trans hrun₁'
  cases hrun₂.symm.trans hrun₂'
  obtain ⟨c, hc, hin⟩ := exists_lastBlock hlt hkept.1
  have hslot₁ : b₁ e = b := hok₁.slot c hc e he hm hin
  have hslot₂ : b₂ e = b' := hok₂.slot c hc e he hm hin
  have hbit₁ := hok₁.bits b₁ (fun _ _ _ => rfl) (e.pfnEnd - 1)
  have hbit₂ := hok₂.bits b₂ (fun _ _ _ => rfl) (e.pfnEnd - 1)
  rw [kept_last_iff hok hb hw he hm hlt hpath hkept, hslot₁] at hbit₁
  rw [kept_last_iff hok hb hw he hm hlt hpath hkept, hslot₂] at hbit₂
  by_contra hno
  have hon := hbit₂.mpr ⟨⟨Nat.zero_le _, hkept.1⟩, hno⟩
  rw [← hsame] at hon
  exact (hbit₁.mp hon).2 hsome

/-- Four pages, the last one with `PG_head`. The destructor of huge pages is 2. -/
def headAtEnd : Image where
  pageShift := 12
  maxMapnr := 4
  extents := [{ physStart := 0, physEnd := 0x4000, fileOffset := 0x1000, fileSize := 0x4000 }]
  kernel := { version := kernelVersion 4 16 0, flags := 0, refcount := 8, mapping := 16
              compoundDtorOffset := 24, pgHeadMask := 0x10000, hugetlbPageDtor := 2 }
  memMaps := [⟨true, 0, 4⟩]
  structPage := fun pfn =>
    (if pfn = 3 then [0, 0, 1, 0, 0, 0, 0, 0] else List.replicate 8 0) ++ List.replicate 24 0

/-- Without a level for free pages every block is a compound one. -/
theorem excludeOrder_compound {k : Kernel} {pfn order : Nat} {page next : List UInt8}
    (hfree : level.testBit dlExcludeFree = false)
    (h : excludeOrder k level pfn page next = some order) :
    order = (compoundOf k pfn (readPage k page) next).1 := by
  unfold excludeOrder at h
  simp only [hfree, Bool.false_and, Bool.false_eq_true, if_false] at h
  split at h
  · cases h
  · grind

theorem headAtEnd_order (b : List UInt8) {pfn order : Nat} (hpfn : pfn < 4)
    (h : orderAt headAtEnd 8 ⟨true, 0, 4⟩ b pfn = some order) : pfn = 3 ∧ order = 0 := by
  by_cases hlast : pfn = 3
  · refine ⟨hlast, ?_⟩
    unfold orderAt at h
    split at h
    · rw [excludeOrder_compound (by decide) h]
      -- the offset of the compound order is not known
      have hread : ∀ p next, (readCompound headAtEnd.kernel p next).1 = 0 := fun _ _ => rfl
      unfold compoundOf
      split
      · dsimp only
        rw [hread]
        split <;> rfl
      · rfl
    · cases h
  · exfalso
    have hlt : pfn + 1 < 4 := by omega
    rw [orderAt_eq hlt b []] at h
    have hnone : ∀ p < 3, orderAt headAtEnd 8 ⟨true, 0, 4⟩ [] p = none := by decide +kernel
    rw [hnone pfn (by omega)] at h
    cases h

theorem headAtEnd_ok : MemMapsOk headAtEnd ∧ BlocksInside headAtEnd 8 ∧ ImageOk headAtEnd := by
  refine ⟨⟨List.pairwise_singleton _ _, ?_, ?_⟩, ?_, ⟨fun _ _ => rfl, rfl, fun _ => rfl⟩⟩
  · intro e he
    rw [List.mem_singleton.mp he]
    decide
  · intro e he
    rw [List.mem_singleton.mp he]
    decide
  · intro e he hm pfn h1 h2 b order ho
    obtain rfl := List.mem_singleton.mp he
    obtain ⟨rfl, rfl⟩ := headAtEnd_order b h2 ho
    decide

end Bitmap
