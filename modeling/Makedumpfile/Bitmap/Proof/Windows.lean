import Makedumpfile.Bitmap.Proof.Exclude

/-!
# The 2nd bitmap over all windows

At the start of a window the rest of the block around it is pending, if there is one (`PendsAll`). The
`mem_map` with that block is the first that the window looks at, since they are sorted
(`excludeUnnecessaryPages_spec`). So every window clears its part of the excluded blocks, and the 2nd
bitmap is that of the blocks whatever the windows are (`secondBitmap_spec`). Only the last page of a
`mem_map` may be looked at together with what happens to be behind it in the page buffer.
-/

namespace Bitmap

open Lib

variable {m : Image} {level fuel : Nat} {e : MemMap} {c : PfnCycle} {s : Scan}

/-! ## One mem_map -/

/-- The last page of the `mem_map` is in the window. -/
def EndsIn (e : MemMap) (c : PfnCycle) : Prop :=
  e.pfnStart < e.pfnEnd ∧ c.startPfn < e.pfnEnd ∧ e.pfnEnd ≤ c.endPfn

/-- What is in a new page buffer behind the last page. -/
def junkSlot (junk : Nat → List UInt8) (e : MemMap) : List UInt8 :=
  junk ((e.pfnEnd - 1) % pgmmCached + 1)

theorem cacheOk_new (junk : Nat → List UInt8) : CacheOk m e { entry := junk } := by
  constructor
  · intro q h1 h2
    dsimp only at h1 h2
    omega
  · intro h
    dsimp only at h
    omega

/-- The pages of a block that waits are excluded. -/
theorem Waits.excluded (hb : BlocksInside m level) (he : e ∈ m.memMaps) {x z q : Nat}
    (h : Waits m level e x z) (h1 : x ≤ q) (h2 : q < z) (b : List UInt8) :
    Excluded m level e b q := by
  obtain ⟨p, hp, hpx, hpz⟩ := h.first.last h.lt
  have hstart := hp.start_le (blockLen_pos m level e)
  have hlt : p < e.pfnEnd := Nat.lt_trans hpx h.lt_end
  refine ⟨p, hp, by omega, by omega, hlt, ?_⟩
  cases ho : orderAt m level e b p with
  | some order => rfl
  | none =>
    -- a block of one page does not reach over `x`
    have hone := blockLen_of_none hb he h.mapped hstart hlt ho
    omega

theorem ClearsFrom.all {b : List UInt8} {buf buf' : List UInt8} {pfn : Nat}
    (h : ClearsFrom m level e b c pfn buf buf')
    (hlow : ∀ q, c.startPfn ≤ q → q < pfn → ¬ Excluded m level e b q) (q : Nat) :
    isDumpableBuffer buf' q c = true ↔
      isDumpableBuffer buf q c = true ∧ ¬ Excluded m level e b q := by
  rw [h q]
  refine and_congr_right fun hq => not_congr ?_
  have hwin := mem_of_isDumpable hq
  constructor
  · exact And.right
  · intro hex
    exact ⟨Nat.le_of_not_lt fun hlt => hlow q hwin.1 hlt hex, hex⟩

/-! ## All of them -/

/-- No block of a later `mem_map` is around a place that an earlier one reaches. -/
theorem not_waits_later {f : MemMap} {x z : Nat} (hx : x ≤ e.pfnEnd) (h : e.pfnEnd ≤ f.pfnStart) :
    ¬ Waits m level f x z := by
  intro hw
  have := hw.start_lt
  omega

variable (m level c) in
/-- One `mem_map` of the loop of `exclude_unnecessary_pages`. -/
def excludeEntry (fuel : Nat) (junk : MemMap → Nat → List UInt8) (s : Scan) (mmd : MemMap) :
    Except Stop Scan :=
  if mmd.mapped && mmd.pfnEnd ≥ c.startPfn && mmd.pfnStart ≤ c.endPfn then
    excludePages m level c fuel (junk mmd) mmd s
  else .ok s

theorem touched_iff : (e.mapped && e.pfnEnd ≥ c.startPfn && e.pfnStart ≤ c.endPfn) = true ↔
    e.mapped = true ∧ c.startPfn ≤ e.pfnEnd ∧ e.pfnStart ≤ c.endPfn := by
  simp only [Bool.and_eq_true, decide_eq_true_eq, and_assoc, ge_iff_le]

/-- `mem_map`s behind the window are not looked at. -/
theorem foldlM_excludeEntry_behind (m : Image) (level fuel : Nat)
    (junk : MemMap → Nat → List UInt8) (s : Scan) (l : List MemMap)
    (h : ∀ e ∈ l, c.endPfn < e.pfnStart) :
    l.foldlM (excludeEntry m level c fuel junk) s = .ok s := by
  induction l with
  | nil => rfl
  | cons e l ih =>
    obtain ⟨he, hl⟩ := List.forall_mem_cons.mp h
    have hno : ¬ (e.mapped && e.pfnEnd ≥ c.startPfn && e.pfnStart ≤ c.endPfn) = true := by
      rw [touched_iff]
      omega
    rw [List.foldlM_cons, excludeEntry, if_neg hno]
    exact ih hl

variable (m level c) in
/-- Something is pending only if a block of one of the `mem_map`s is around `x`. -/
def PendsIn (l : List MemMap) (x : Nat) (s : Scan) : Prop :=
  ∃ e ∈ l, ∃ z, Waits m level e x z ∧ s.waitsFor x z

/-- The last page of a `mem_map` is read into a buffer without anything of the blocks before it. -/
def InLastBlock (c : PfnCycle) (e : MemMap) : Prop :=
  EndsIn e c ∧ c.startPfn / pgmmCached = (e.pfnEnd - 1) / pgmmCached

/-- The `mem_map`s of the list are done; `b` is what was behind the last page of each. -/
structure Passed (m : Image) (level : Nat) (c : PfnCycle) (junk : MemMap → Nat → List UInt8)
    (l : List MemMap) (s s' : Scan) (b : MemMap → List UInt8) : Prop where
  length : s'.buf.length = s.buf.length
  slot : ∀ e ∈ l, e.mapped = true → InLastBlock c e → b e = junkSlot (junk e) e
  bits : ∀ b' : MemMap → List UInt8, (∀ e ∈ l, EndsIn e c → b' e = b e) → ∀ q,
    isDumpableBuffer s'.buf q c = true ↔ isDumpableBuffer s.buf q c = true ∧
      ∀ e ∈ l, e.mapped = true → ¬ Excluded m level e (b' e) q
  waits : ∀ e ∈ l, ∀ z, Waits m level e c.endPfn z → s'.waitsFor c.endPfn z
  pending : s'.pending → PendsIn m level l c.endPfn s' ∨ s' = s ∧ ∀ e ∈ l, c.endPfn < e.pfnStart

section Ok

variable (hok : MemMapsOk m) (hb : BlocksInside m level) (hr : Readable m)
  (hwin : c.startPfn < c.endPfn)

include hok hb hr hwin

/-- **A `mem_map` in a window.** -/
theorem excludePages_spec (he : e ∈ m.memMaps) (hm : e.mapped = true)
    (hl : c.endPfn ≤ c.startPfn + 8 * s.buf.length) (hs : PendsAt m level e c.startPfn s)
    (junk : Nat → List UInt8) (hfuel : e.pfnEnd < fuel) :
    ∃ s' b, excludePages m level c fuel junk e s = .ok s' ∧ s'.buf.length = s.buf.length ∧
      (c.startPfn / pgmmCached = (e.pfnEnd - 1) / pgmmCached → b = junkSlot junk e) ∧
      (∀ b', (EndsIn e c → b' = b) → ∀ q, isDumpableBuffer s'.buf q c = true ↔
        isDumpableBuffer s.buf q c = true ∧ ¬ Excluded m level e b' q) ∧
      PendsAt m level e c.endPfn s' := by
  unfold excludePages startPages
  by_cases hp : s.pending
  · obtain ⟨z, hz, hwz⟩ := hs.pending hp
    have hstart := hz.start_lt
    have hzend := hz.le_end hb he
    have hzx := hz.lt
    rw [if_pos hp, hwz.1, hwz.2]
    obtain ⟨s', b, hrun, hlen, hslot, hclears, hpend, hsame⟩ :=
      scanPages_window hok hb hr he hm fuel
        { pfn := z, cache := { entry := junk }, scan := excludeRange c.startPfn z c s }
        (by dsimp only; omega) (cacheOk_new junk)
        (by
          dsimp only [excludeRange]
          rw [length_clearRange]
          exact hl)
        (by dsimp only; omega)
        (by
          dsimp only [excludeRange]
          intro hlt
          refine ⟨?_, ?_⟩
          · unfold Scan.pending
            dsimp only
            omega
          · rw [show max z c.startPfn = z by omega]
            exact hz.first.onPath)
    dsimp only [excludeRange] at hlen hclears hpend hsame hslot
    refine ⟨s', b, hrun, hlen.trans (length_clearRange _ _ _ _), hslot, ?_, ?_⟩
    · intro b' hb' q
      rw [hclears b' (fun h1 h2 h3 => hb' ⟨by omega, h2, h3⟩) q,
        isDumpable_clearRange q _ _ _ hl, Bool.and_eq_true, Bool.not_eq_true',
        decide_eq_false_iff_not, and_assoc]
      refine and_congr_right fun hq => ?_
      have hqwin := mem_of_isDumpable hq
      constructor
      · rintro ⟨h1, h2⟩ hex
        by_cases hlt : q < z
        · exact h1 (by omega)
        · exact h2 ⟨Nat.le_of_not_lt hlt, hex⟩
      · intro hno
        refine ⟨fun h => hno (hz.excluded hb he h.1 (by omega) b'), fun h => hno h.2⟩
    · by_cases hlt : max z c.startPfn < min c.endPfn e.pfnEnd
      · exact hpend hlt
      · rw [hsame hlt]
        by_cases hover : c.endPfn < z
        · have hw : Waits m level e c.endPfn z :=
            ⟨hm, by omega, ⟨hz.first.onPath, Nat.le_of_lt hover, fun _ => by
              obtain ⟨p, hp, hpx, hpz⟩ := hz.first.last hzx
              exact ⟨p, hp, by omega, hpz⟩⟩, hover⟩
          exact ⟨fun z' hz' => ⟨rfl, hw.unique hz'⟩, fun _ => ⟨z, hw, rfl, rfl⟩⟩
        · constructor
          · intro z' hz'
            have hend' := hz'.lt_end
            have heq : z = c.endPfn := by omega
            exact absurd hz' (not_waits_of_onPath (heq ▸ hz.first.onPath))
          · intro hp'
            unfold Scan.pending at hp'
            dsimp only at hp'
            omega
  · rw [if_neg hp]
    have hnone : ∀ z, ¬ Waits m level e c.startPfn z := fun z hz =>
      hp ((hs.waits z hz).pending hz.lt)
    obtain ⟨s', b, hrun, hlen, hslot, hclears, hpend, hsame⟩ :=
      scanPages_window hok hb hr he hm fuel
        { pfn := e.pfnStart, cache := { entry := junk }, scan := s }
        (by dsimp only; omega) (cacheOk_new junk) hl (Nat.le_refl _)
        (by
          dsimp only
          intro hlt
          refine ⟨hp, ?_⟩
          by_cases hle : c.startPfn ≤ e.pfnStart
          · rw [Nat.max_eq_left hle]
            exact .refl _ _
          · rw [Nat.max_eq_right (by omega)]
            obtain ⟨z, hz⟩ := exists_firstFrom (blockLen_pos m level e)
              (show e.pfnStart ≤ c.startPfn by omega)
            by_cases hzx : c.startPfn < z
            · exact absurd ⟨hm, by omega, hz, hzx⟩ (hnone z)
            · have heq : z = c.startPfn := by
                have := hz.le
                omega
              exact heq ▸ hz.onPath)
    dsimp only at hlen hclears hpend hsame hslot
    refine ⟨s', b, hrun, hlen, hslot, ?_, ?_⟩
    · intro b' hb'
      refine (hclears b' fun h1 h2 h3 => hb' ⟨h1, h2, h3⟩).all fun q _ hlt hex => ?_
      have := (hex.mem hb he hm).1
      omega
    · by_cases hlt : max e.pfnStart c.startPfn < min c.endPfn e.pfnEnd
      · exact hpend hlt
      · rw [hsame hlt]
        refine ⟨fun z hz => ?_, fun hp' => absurd hp' hp⟩
        have h1 := hz.start_lt
        have h2 := hz.lt_end
        omega

/-- **The `mem_map`s in a window**, from one on: if something is pending, it is of one of them. -/
theorem foldlM_excludeEntry (junk : MemMap → Nat → List UInt8) (l : List MemMap)
    (hsub : ∀ e ∈ l, e ∈ m.memMaps) (hpw : l.Pairwise fun e f => e.pfnEnd ≤ f.pfnStart)
    (hfuel : ∀ e ∈ l, e.pfnEnd < fuel) (s : Scan)
    (hl : c.endPfn ≤ c.startPfn + 8 * s.buf.length)
    (hwaits : ∀ e ∈ l, ∀ z, Waits m level e c.startPfn z → s.waitsFor c.startPfn z)
    (hpend : s.pending → PendsIn m level l c.startPfn s ∨ ∀ e ∈ l, c.endPfn < e.pfnStart) :
    ∃ s' b, l.foldlM (excludeEntry m level c fuel junk) s = .ok s' ∧
      Passed m level c junk l s s' b := by
  induction l generalizing s with
  | nil =>
    exact ⟨s, fun _ => [], rfl, rfl, nofun, fun _ _ q => by simp, nofun,
      fun _ => .inr ⟨rfl, nofun⟩⟩
  | cons e l ih =>
    obtain ⟨he, hsub'⟩ := List.forall_mem_cons.mp hsub
    obtain ⟨hlater, hpw'⟩ := List.pairwise_cons.mp hpw
    obtain ⟨hefuel, hfuel'⟩ := List.forall_mem_cons.mp hfuel
    obtain ⟨hewaits, hwaits'⟩ := List.forall_mem_cons.mp hwaits
    have horder := hok.order e he
    rw [List.foldlM_cons]
    by_cases htouch : e.mapped = true ∧ c.startPfn ≤ e.pfnEnd ∧ e.pfnStart ≤ c.endPfn
    · obtain ⟨hm, h1, h2⟩ := htouch
      have hfar : ∀ f ∈ l, ∀ z, ¬ Waits m level f c.startPfn z := fun f hf z =>
        not_waits_later h1 (hlater f hf)
      have hpends : PendsAt m level e c.startPfn s := by
        refine ⟨hewaits, fun hp => ?_⟩
        rcases hpend hp with ⟨f, hf, z, hz, hwz⟩ | hall
        · rcases List.mem_cons.mp hf with rfl | hf
          · exact ⟨z, hz, hwz⟩
          · exact absurd hz (hfar f hf z)
        · have := hall e List.mem_cons_self
          omega
      obtain ⟨s₁, b₁, hrun₁, hlen₁, hslot₁, hbits₁, hpend₁⟩ :=
        excludePages_spec hok hb hr hwin he hm hl hpends (junk e) hefuel
      -- what is pending then is of this one, and the others are behind the window
      have hbehind : s₁.pending → ∀ f ∈ l, c.endPfn < f.pfnStart := by
        intro hp f hf
        obtain ⟨z, hz, -⟩ := hpend₁.pending hp
        have h3 := hz.lt_end
        have h4 := hlater f hf
        omega
      obtain ⟨s₂, b₂, hrun₂, hpass⟩ :=
        ih hsub' hpw' hfuel' s₁ (hlen₁ ▸ hl) (fun f hf z hz => absurd hz (hfar f hf z))
          fun hp => .inr (hbehind hp)
      -- the same place is not the end of two `mem_map`s with pages
      have hne : ∀ f ∈ l, EndsIn f c → ¬ (f = e ∧ e.pfnStart < e.pfnEnd) := by
        rintro f hf hin ⟨rfl, hlt⟩
        have := hlater f hf
        omega
      refine ⟨s₂, fun f => if f = e ∧ e.pfnStart < e.pfnEnd then b₁ else b₂ f, ?_, ?_⟩
      · rw [excludeEntry, if_pos (touched_iff.mpr ⟨hm, h1, h2⟩), hrun₁]
        exact hrun₂
      · constructor
        case length => exact hpass.length.trans hlen₁
        case slot =>
          refine List.forall_mem_cons.mpr ⟨fun _ hin => ?_, fun f hf hfm hin => ?_⟩
          · rw [if_pos ⟨rfl, hin.1.1⟩]
            exact hslot₁ hin.2
          · rw [if_neg (hne f hf hin.1)]
            exact hpass.slot f hf hfm hin
        case bits =>
          intro b' hb' q
          obtain ⟨hbe, hbl⟩ := List.forall_mem_cons.mp hb'
          have h₁ := hbits₁ (b' e) (fun hin => (hbe hin).trans (if_pos ⟨rfl, hin.1⟩)) q
          have h₂ := hpass.bits b' (fun f hf hin => (hbl f hf hin).trans (if_neg (hne f hf hin))) q
          rw [h₂, h₁, and_assoc, List.forall_mem_cons]
          exact and_congr_right fun _ => and_congr_left fun _ => ⟨fun h _ => h, fun h => h hm⟩
        case waits =>
          refine List.forall_mem_cons.mpr ⟨fun z hz => ?_, hpass.waits⟩
          have hwz := hpend₁.waits z hz
          have hsame := foldlM_excludeEntry_behind m level fuel junk s₁ l
            (hbehind (hwz.pending hz.lt))
          cases hrun₂.symm.trans hsame
          exact hwz
        case pending =>
          intro hp
          rcases hpass.pending hp with ⟨f, hf, hz⟩ | ⟨heq, -⟩
          · exact .inl ⟨f, List.mem_cons_of_mem _ hf, hz⟩
          · rw [heq] at hp ⊢
            exact .inl ⟨e, List.mem_cons_self, hpend₁.pending hp⟩
    · obtain ⟨s₂, b₂, hrun₂, hpass⟩ := ih hsub' hpw' hfuel' s hl hwaits' (by
        intro hp
        rcases hpend hp with ⟨f, hf, z, hz, hwz⟩ | hall
        · rcases List.mem_cons.mp hf with rfl | hf
          · have h3 := hz.start_lt
            have h4 := hz.lt_end
            exact absurd ⟨hz.mapped, by omega, by omega⟩ htouch
          · exact .inl ⟨f, hf, z, hz, hwz⟩
        · exact .inr fun f hf => hall f (List.mem_cons_of_mem _ hf))
      refine ⟨s₂, b₂, ?_, ?_⟩
      · rw [excludeEntry, if_neg (mt touched_iff.mp htouch)]
        exact hrun₂
      · constructor
        case length => exact hpass.length
        case slot =>
          refine List.forall_mem_cons.mpr ⟨fun hm hin => ?_, hpass.slot⟩
          have h3 := hin.1.2
          exact absurd ⟨hm, by omega, by omega⟩ htouch
        case bits =>
          intro b' hb' q
          rw [hpass.bits b' (fun f hf => hb' f (List.mem_cons_of_mem _ hf)) q, List.forall_mem_cons]
          refine and_congr_right fun hq => (and_iff_right fun hm hex => ?_).symm
          have h3 := hex.mem hb he hm
          have h4 := mem_of_isDumpable hq
          exact htouch ⟨hm, by omega, by omega⟩
        case waits =>
          refine List.forall_mem_cons.mpr ⟨fun z hz => ?_, hpass.waits⟩
          have h3 := hz.start_lt
          have h4 := hz.lt_end
          exact absurd ⟨hz.mapped, by omega, by omega⟩ htouch
        case pending =>
          intro hp
          rcases hpass.pending hp with ⟨f, hf, hz⟩ | ⟨heq, hall⟩
          · exact .inl ⟨f, List.mem_cons_of_mem _ hf, hz⟩
          · rw [heq] at hp
            rcases hpend hp with ⟨f, hf, z, hz, -⟩ | hall'
            · have h3 := hz.start_lt
              rcases List.mem_cons.mp hf with rfl | hf
              · have h4 := hz.lt_end
                exact absurd ⟨hz.mapped, by omega, by omega⟩ htouch
              · have h4 := hall f hf
                omega
            · exact .inr ⟨heq, hall'⟩

end Ok

/-! ## What is kept -/

variable (m) in
/-- All that is looked at can be read. -/
structure ImageOk : Prop where
  pages : Readable m
  free : m.freeBlocks.isSome = true
  zero : ∀ pfn, (m.zeroPage pfn).isSome = true

variable (m) in
/-- The page is one of the memory's, and not one without data. -/
def HasMemory (pfn : Nat) : Prop :=
  (∃ e ∈ m.extents, e.physStart / m.pageSize ≤ pfn ∧ pfn < e.physEnd / m.pageSize) ∧ ¬ InTail m pfn

variable (m level) in
/-- The page is in a block that is excluded by its `struct page`. -/
def InExcluded (b : MemMap → List UInt8) (pfn : Nat) : Prop :=
  wantsPages m level = true ∧ ∃ e ∈ m.memMaps, e.mapped = true ∧ Excluded m level e (b e) pfn

variable (m) in
/-- The page is in a block of the free lists. -/
def OnFreeList (pfn : Nat) : Prop :=
  ∃ blk ∈ m.freeBlocks.getD [], blk.1 ≤ pfn ∧ pfn < blk.1 + 2 ^ blk.2

variable (m level) in
/-- The page is excluded by the free lists. -/
def FreeDropped (pfn : Nat) : Prop :=
  (level.testBit dlExcludeFree && (pageIsBuddy m.kernel).isNone) = true ∧ OnFreeList m pfn

variable (m level) in
/-- The page is excluded since it is filled with zeros. -/
def ZeroDropped (elf : Bool) (pfn : Nat) : Prop :=
  (level.testBit dlExcludeZero && elf) = true ∧ isInSegs m pfn = true ∧ m.zeroPage pfn = some true

variable (m level) in
/-- The page is dumpable, with `b` behind the last pages of the `mem_map`s. -/
def Kept (elf : Bool) (b : MemMap → List UInt8) (pfn : Nat) : Prop :=
  HasMemory m pfn ∧ ¬ InExcluded m level b pfn ∧ ¬ FreeDropped m level pfn ∧
    ¬ ZeroDropped m level elf pfn

/-! ## The filters without a struct page -/

variable {buf : List UInt8}

theorem foldl_clearBlocks (hl : c.endPfn ≤ c.startPfn + 8 * buf.length) (l : List (Nat × Nat)) :
    (l.foldl (fun buf b => clearRange buf b.1 (2 ^ b.2) c) buf).length = buf.length ∧
      ∀ q, isDumpableBuffer (l.foldl (fun buf b => clearRange buf b.1 (2 ^ b.2) c) buf) q c = true ↔
        isDumpableBuffer buf q c = true ∧ ¬ ∃ blk ∈ l, blk.1 ≤ q ∧ q < blk.1 + 2 ^ blk.2 := by
  induction l generalizing buf with
  | nil => exact ⟨rfl, fun q => by simp⟩
  | cons blk l ih =>
    have hlen := length_clearRange (2 ^ blk.2) buf blk.1 c
    have hl' : c.endPfn ≤ c.startPfn + 8 * (clearRange buf blk.1 (2 ^ blk.2) c).length := by
      rwa [hlen]
    obtain ⟨ihlen, ihbits⟩ := ih hl'
    refine ⟨ihlen.trans hlen, fun q => ?_⟩
    rw [List.foldl_cons, ihbits q, isDumpable_clearRange q _ _ _ hl, Bool.and_eq_true,
      Bool.not_eq_true', decide_eq_false_iff_not, and_assoc]
    simp only [List.mem_cons, exists_eq_or_imp, not_or]

theorem excludeFreePage_spec (hr : ImageOk m) (hl : c.endPfn ≤ c.startPfn + 8 * buf.length) :
    ∃ buf', excludeFreePage m c buf = some buf' ∧ buf'.length = buf.length ∧
      ∀ q, isDumpableBuffer buf' q c = true ↔
        isDumpableBuffer buf q c = true ∧ ¬ OnFreeList m q := by
  obtain ⟨l, hfree⟩ := Option.isSome_iff_exists.mp hr.free
  obtain ⟨hlen, hbits⟩ := foldl_clearBlocks hl l
  refine ⟨_, by rw [excludeFreePage, hfree]; rfl, hlen, fun q => ?_⟩
  rw [hbits q, OnFreeList, hfree, Option.getD_some]

/-- One page that may be filled with zeros. -/
theorem excludeZeroPage_spec (hr : ImageOk m) (hl : c.endPfn ≤ c.startPfn + 8 * buf.length)
    (pfn : Nat) :
    ∃ buf', excludeZeroPage m c buf pfn = some buf' ∧ buf'.length = buf.length ∧
      ∀ q, isDumpableBuffer buf' q c = true ↔ isDumpableBuffer buf q c = true ∧
        ¬ (q = pfn ∧ isInSegs m q = true ∧ m.zeroPage q = some true) := by
  unfold excludeZeroPage
  have hkeep : ∀ {P : Nat → Prop}, (∀ q, isDumpableBuffer buf q c = true → ¬ P q) →
      ∀ q, isDumpableBuffer buf q c = true ↔ isDumpableBuffer buf q c = true ∧ ¬ P q :=
    fun h q => ⟨fun hq => ⟨hq, h q hq⟩, And.left⟩
  split
  case isTrue hseg =>
    refine ⟨buf, rfl, rfl, hkeep fun q _ ⟨hq, hs, _⟩ => ?_⟩
    rw [hq] at hs
    simp [hs] at hseg
  split
  case isTrue hdump =>
    refine ⟨buf, rfl, rfl, hkeep fun q hq ⟨he, _⟩ => ?_⟩
    rw [he] at hq
    simp [hq] at hdump
  obtain ⟨z, hz⟩ := Option.isSome_iff_exists.mp (hr.zero pfn)
  rw [hz, Option.map_some]
  cases z with
  | false =>
    refine ⟨buf, rfl, rfl, hkeep fun q _ ⟨hq, _, hzero⟩ => ?_⟩
    rw [hq, hz] at hzero
    cases hzero
  | true =>
    rename_i hseg _
    refine ⟨_, rfl, length_clearBit _ _ _, fun q => ?_⟩
    rw [if_pos rfl, isDumpable_clearBit hl, Bool.and_eq_true, decide_eq_true_eq]
    refine and_congr_right fun _ => not_congr ⟨?_, And.left⟩
    rintro rfl
    exact ⟨rfl, by simpa using hseg, hz⟩

theorem foldlM_excludeZeroPage (hr : ImageOk m) (hl : c.endPfn ≤ c.startPfn + 8 * buf.length)
    (l : List Nat) :
    ∃ buf', l.foldlM (excludeZeroPage m c) buf = some buf' ∧ buf'.length = buf.length ∧
      ∀ q, isDumpableBuffer buf' q c = true ↔ isDumpableBuffer buf q c = true ∧
        ¬ (q ∈ l ∧ isInSegs m q = true ∧ m.zeroPage q = some true) := by
  induction l generalizing buf with
  | nil => exact ⟨buf, rfl, rfl, fun q => by simp⟩
  | cons pfn l ih =>
    obtain ⟨buf₁, hrun₁, hlen₁, hbits₁⟩ := excludeZeroPage_spec hr hl pfn
    have hl' : c.endPfn ≤ c.startPfn + 8 * buf₁.length := by rwa [hlen₁]
    obtain ⟨buf₂, hrun₂, hlen₂, hbits₂⟩ := ih hl'
    refine ⟨buf₂, ?_, hlen₂.trans hlen₁, fun q => ?_⟩
    · rw [List.foldlM_cons, hrun₁]
      exact hrun₂
    · rw [hbits₂ q, hbits₁ q, and_assoc, List.mem_cons]
      refine and_congr_right fun _ => ?_
      rw [or_and_right, not_or]

theorem excludeZeroPagesCyclic_spec (hr : ImageOk m)
    (hl : c.endPfn ≤ c.startPfn + 8 * buf.length) :
    ∃ buf', excludeZeroPagesCyclic m c buf = some buf' ∧ buf'.length = buf.length ∧
      ∀ q, isDumpableBuffer buf' q c = true ↔ isDumpableBuffer buf q c = true ∧
        ¬ (isInSegs m q = true ∧ m.zeroPage q = some true) := by
  obtain ⟨buf', hrun, hlen, hbits⟩ :=
    foldlM_excludeZeroPage hr hl (List.range' c.startPfn (c.endPfn - c.startPfn))
  refine ⟨buf', hrun, hlen, fun q => ?_⟩
  rw [hbits q]
  refine and_congr_right fun hq => not_congr (and_iff_right ?_)
  have hwin := mem_of_isDumpable hq
  rw [List.mem_range'_1]
  omega

/-! ## One window -/

theorem length_excludeNodataPages (buf : List UInt8) :
    (excludeNodataPages m c buf).length = buf.length := by
  unfold excludeNodataPages
  induction m.extents generalizing buf with
  | nil => rfl
  | cons e l ih =>
    rw [List.foldl_cons, ih]
    exact length_clearRange _ _ _ _

/-- A window starts with the pages of the memory. -/
theorem window_start {bufsizeCyclic : Nat} (h8 : 8 ∣ c.startPfn)
    (hl : c.endPfn ≤ c.startPfn + 8 * bufsizeCyclic) :
    ∃ buf, excludeNodataPages m c
        (createBitmapFromMemhole (m.info bufsizeCyclic) false c 0).2.buf = buf ∧
      buf.length = bufsizeCyclic ∧
      ∀ q, isDumpableBuffer buf q c = true ↔
        (c.startPfn ≤ q ∧ q < c.endPfn) ∧ HasMemory m q := by
  obtain ⟨w, hw, hbits⟩ := createBitmapFromMemhole_bits (m.info bufsizeCyclic) false h8 hl 0
  have hlen : w.buf.length = bufsizeCyclic := by
    have hload := memholeLoads_length (m.info bufsizeCyclic) false h8 (m.info bufsizeCyclic).ptLoads
      ⟨List.replicate bufsizeCyclic 0, 0⟩ (by simpa using hl)
    have hrun : tryEach (memholeLoad (m.info bufsizeCyclic) false c) (m.info bufsizeCyclic).ptLoads
        ⟨List.replicate bufsizeCyclic 0, 0⟩ = (true, w) := hw
    rw [hrun] at hload
    simpa using hload
  rw [hw]
  refine ⟨_, rfl, (length_excludeNodataPages _).trans hlen, fun q => ?_⟩
  rw [isDumpable_excludeNodataPages (by rw [hlen]; exact hl), HasMemory, ← and_assoc]
  refine and_congr_left fun _ => ?_
  unfold isDumpableBuffer
  rw [Bool.and_eq_true, isCyclicRegion_iff]
  refine and_congr_right fun hq => ?_
  rw [hbits, Nat.add_sub_cancel' hq.1, and_iff_right hq.2]
  simp only [Image.info, List.mem_map, exists_exists_and_eq_and]
  rfl

variable (m level) in
/-- At `x` the rest of the block around it is pending, and nothing else. -/
def PendsAll (x : Nat) (pend : Nat × Nat) : Prop :=
  wantsPages m level = true →
    (∀ e ∈ m.memMaps, ∀ z, Waits m level e x z → pend = (x, z)) ∧
      (pend.1 < pend.2 → ∃ e ∈ m.memMaps, ∃ z, Waits m level e x z ∧ pend = (x, z))

/-- **The struct pages in a window.** -/
theorem excludeUnnecessaryPages_spec (hok : MemMapsOk m) (hb : BlocksInside m level)
    (hr : Readable m) (hwin : c.startPfn < c.endPfn) (hw : wantsPages m level = true)
    (hfuel : ∀ e ∈ m.memMaps, e.pfnEnd < fuel) (hl : c.endPfn ≤ c.startPfn + 8 * s.buf.length)
    (hpend : PendsAll m level c.startPfn (s.excludePfnStart, s.excludePfnEnd))
    (junk : MemMap → Nat → List UInt8) :
    ∃ s' b, excludeUnnecessaryPages m level c fuel junk s = .ok s' ∧
      Passed m level c junk m.memMaps s s' b ∧
      PendsAll m level c.endPfn (s'.excludePfnStart, s'.excludePfnEnd) := by
  obtain ⟨hwaits, hpending⟩ := hpend hw
  have hwaits' : ∀ e ∈ m.memMaps, ∀ z, Waits m level e c.startPfn z → s.waitsFor c.startPfn z := by
    intro e he z hz
    exact Prod.mk.inj (hwaits e he z hz)
  have hin : s.pending → PendsIn m level m.memMaps c.startPfn s := by
    intro hp
    obtain ⟨e, he, z, hz, heq⟩ := hpending hp
    exact ⟨e, he, z, hz, Prod.mk.inj heq⟩
  obtain ⟨s', b, hrun, hpass⟩ := foldlM_excludeEntry hok hb hr hwin junk m.memMaps
    (fun _ he => he) hok.apart hfuel s hl hwaits' fun hp => .inl (hin hp)
  refine ⟨s', b, hrun, hpass, fun _ => ⟨fun e he z hz => ?_, fun hp => ?_⟩⟩
  · obtain ⟨h1, h2⟩ := hpass.waits e he z hz
    rw [h1, h2]
  · rcases hpass.pending hp with ⟨e, he, z, hz, h1, h2⟩ | ⟨heq, hall⟩
    · exact ⟨e, he, z, hz, by rw [h1, h2]⟩
    · -- a `mem_map` with a block around the start of the window is not behind it
      rw [heq] at hp
      obtain ⟨e, he, z, hz, -⟩ := hin hp
      have h1 := hz.start_lt
      have h2 := hall e he
      omega

/-- The window is done; `b` is what was behind the last pages. -/
structure WindowOk (m : Image) (level : Nat) (elf : Bool) (c : PfnCycle)
    (junk : MemMap → Nat → List UInt8) (s : Scan) (b : MemMap → List UInt8) : Prop where
  slot : ∀ e ∈ m.memMaps, e.mapped = true → InLastBlock c e → b e = junkSlot (junk e) e
  bits : ∀ b' : MemMap → List UInt8, (∀ e ∈ m.memMaps, EndsIn e c → b' e = b e) → ∀ q,
    isDumpableBuffer s.buf q c = true ↔ (c.startPfn ≤ q ∧ q < c.endPfn) ∧ Kept m level elf b' q
  pends : PendsAll m level c.endPfn (s.excludePfnStart, s.excludePfnEnd)

/-- A step of a `do` block that is one of two. -/
theorem ite_bind_ok {ε α β : Type} {p : Prop} [Decidable p] {x y : Except ε α} {a : α}
    (h : (if p then x else y) = .ok a) (f : α → Except ε β) :
    (if p then x >>= f else y >>= f) = f a := by
  split at h
  · rw [if_pos ‹p›, h]
    rfl
  · rw [if_neg ‹¬ p›, h]
    rfl

/-- **The 2nd bitmap of a window.** -/
theorem create2ndBitmap_spec (hok : MemMapsOk m)
    (hb : wantsPages m level = true → BlocksInside m level) (hr : ImageOk m)
    (hwin : c.startPfn < c.endPfn) (h8 : 8 ∣ c.startPfn) {bufsizeCyclic : Nat}
    (hl : c.endPfn ≤ c.startPfn + 8 * bufsizeCyclic)
    (hfuel : ∀ e ∈ m.memMaps, e.pfnEnd < fuel) {pend : Nat × Nat}
    (hpend : PendsAll m level c.startPfn pend) (elf : Bool) (junk : MemMap → Nat → List UInt8) :
    ∃ s b, create2ndBitmap m elf level bufsizeCyclic fuel junk c pend = .ok s ∧
      WindowOk m level elf c junk s b := by
  obtain ⟨buf, hbuf, hlen, hbits⟩ := window_start (m := m) h8 hl
  obtain ⟨s₁, b, hrun₁, hlen₁, hslot, hbits₁, hpend₁⟩ :
      ∃ s₁, ∃ b : MemMap → List UInt8, (if wantsPages m level = true then
          excludeUnnecessaryPages m level c fuel junk
            { buf, excludePfnStart := pend.1, excludePfnEnd := pend.2 }
        else .ok { buf, excludePfnStart := pend.1, excludePfnEnd := pend.2 }) = .ok s₁ ∧
        s₁.buf.length = buf.length ∧
        (∀ e ∈ m.memMaps, e.mapped = true → InLastBlock c e → b e = junkSlot (junk e) e) ∧
        (∀ b' : MemMap → List UInt8, (∀ e ∈ m.memMaps, EndsIn e c → b' e = b e) → ∀ q,
          isDumpableBuffer s₁.buf q c = true ↔
            isDumpableBuffer buf q c = true ∧ ¬ InExcluded m level b' q) ∧
        PendsAll m level c.endPfn (s₁.excludePfnStart, s₁.excludePfnEnd) := by
    by_cases hw : wantsPages m level = true
    · rw [if_pos hw]
      obtain ⟨s₁, b, hrun, hpass, hp⟩ := excludeUnnecessaryPages_spec
        (s := { buf, excludePfnStart := pend.1, excludePfnEnd := pend.2 }) hok (hb hw) hr.pages hwin hw
        hfuel (by rw [hlen]; exact hl) hpend junk
      refine ⟨s₁, b, hrun, hpass.length, hpass.slot, fun b' hb' q => ?_, hp⟩
      rw [hpass.bits b' hb' q, InExcluded, and_iff_right hw]
      simp only [not_exists, not_and]
    · rw [if_neg hw]
      refine ⟨_, fun e => junkSlot (junk e) e, rfl, rfl, fun _ _ _ _ => rfl, fun b' _ q => ?_,
        fun h => absurd h hw⟩
      exact (and_iff_left fun h => hw h.1).symm
  obtain ⟨buf₂, hrun₂, hlen₂, hbits₂⟩ :
      ∃ buf₂, (if (level.testBit dlExcludeFree && (pageIsBuddy m.kernel).isNone) = true then
          orFail (excludeFreePage m c s₁.buf) else .ok s₁.buf) = .ok buf₂ ∧
        buf₂.length = s₁.buf.length ∧
        ∀ q, isDumpableBuffer buf₂ q c = true ↔
          isDumpableBuffer s₁.buf q c = true ∧ ¬ FreeDropped m level q := by
    split
    case isTrue h =>
      have hl₁ : c.endPfn ≤ c.startPfn + 8 * s₁.buf.length := by rwa [hlen₁, hlen]
      obtain ⟨buf₂, hrun, hlen₂, hbits₂⟩ := excludeFreePage_spec hr hl₁
      refine ⟨buf₂, by rw [hrun]; rfl, hlen₂, fun q => ?_⟩
      rw [hbits₂ q, FreeDropped, and_iff_right h]
    case isFalse h =>
      exact ⟨_, rfl, rfl, fun q => (and_iff_left fun hd => h hd.1).symm⟩
  obtain ⟨buf₃, hrun₃, hlen₃, hbits₃⟩ :
      ∃ buf₃, (if (level.testBit dlExcludeZero && elf) = true then
          orFail (excludeZeroPagesCyclic m c buf₂) else .ok buf₂) = .ok buf₃ ∧
        buf₃.length = buf₂.length ∧
        ∀ q, isDumpableBuffer buf₃ q c = true ↔
          isDumpableBuffer buf₂ q c = true ∧ ¬ ZeroDropped m level elf q := by
    split
    case isTrue h =>
      have hl₂ : c.endPfn ≤ c.startPfn + 8 * buf₂.length := by rwa [hlen₂, hlen₁, hlen]
      obtain ⟨buf₃, hrun, hlen₃, hbits₃⟩ := excludeZeroPagesCyclic_spec hr hl₂
      refine ⟨buf₃, by rw [hrun]; rfl, hlen₃, fun q => ?_⟩
      rw [hbits₃ q, ZeroDropped, and_iff_right h]
    case isFalse h =>
      exact ⟨_, rfl, rfl, fun q => (and_iff_left fun hd => h hd.1).symm⟩
  refine ⟨{ s₁ with buf := buf₃ }, b, ?_, ⟨hslot, fun b' hb' q => ?_, hpend₁⟩⟩
  · unfold create2ndBitmap
    dsimp only
    rw [hbuf]
    exact (ite_bind_ok hrun₁ _).trans ((ite_bind_ok hrun₂ _).trans (ite_bind_ok hrun₃ _))
  · dsimp only
    rw [hbits₃ q, hbits₂ q, hbits₁ b' hb' q, hbits q, Kept]
    simp only [and_assoc]

/-! ## All windows -/

instance (e : MemMap) (c : PfnCycle) : Decidable (EndsIn e c) :=
  inferInstanceAs (Decidable (_ ∧ _ ∧ _))

/-- The windows behind a window. -/
theorem le_of_mem_cyclesFrom {p limit : Nat} {c c' : PfnCycle}
    (h : c' ∈ PfnCycle.cyclesFrom p limit c) : c.startPfn ≤ c'.startPfn := by
  rw [PfnCycle.cyclesFrom] at h
  split at h
  case isTrue hc =>
    rcases List.mem_cons.mp h with rfl | h
    · exact Nat.le_refl _
    · have ih := le_of_mem_cyclesFrom h
      simp only [PfnCycle.updateCycle] at ih
      omega
  case isFalse => cases h
termination_by limit - c.startPfn
decreasing_by
  simp only [PfnCycle.updateCycle]
  omega

/-- The windows from `x` on are done; `b` is what was behind the last pages. -/
structure RunOk (m : Image) (level : Nat) (elf : Bool) (x : Nat) (cs : List PfnCycle)
    (junk : PfnCycle → MemMap → Nat → List UInt8) (ws : List (PfnCycle × List UInt8))
    (b : MemMap → List UInt8) : Prop where
  slot : ∀ c ∈ cs, ∀ e ∈ m.memMaps, e.mapped = true → InLastBlock c e →
    b e = junkSlot (junk c e) e
  bits : ∀ b' : MemMap → List UInt8,
    (∀ e ∈ m.memMaps, EndsIn e ⟨x, m.maxMapnr⟩ → b' e = b e) → ∀ q,
    dumpable ws q = true ↔ (x ≤ q ∧ q < m.maxMapnr) ∧ Kept m level elf b' q

theorem createWindows_spec (hok : MemMapsOk m)
    (hb : wantsPages m level = true → BlocksInside m level) (hr : ImageOk m) {bufsizeCyclic : Nat}
    (hpos : 0 < bufsizeCyclic) (hfuel : ∀ e ∈ m.memMaps, e.pfnEnd < fuel) (elf : Bool)
    (junk : PfnCycle → MemMap → Nat → List UInt8) (c : PfnCycle)
    (hend : c.endPfn = min (c.startPfn + bufsizeCyclic * 8) m.maxMapnr)
    (h8 : c.startPfn < m.maxMapnr → 8 ∣ c.startPfn) {pend : Nat × Nat}
    (hpend : PendsAll m level c.startPfn pend) :
    ∃ ws b, createWindows m elf level bufsizeCyclic fuel junk
        (PfnCycle.cyclesFrom (bufsizeCyclic * 8) m.maxMapnr c) pend = .ok ws ∧
      RunOk m level elf c.startPfn (PfnCycle.cyclesFrom (bufsizeCyclic * 8) m.maxMapnr c) junk
        ws b := by
  rw [PfnCycle.cyclesFrom]
  split
  case isTrue hc =>
    obtain ⟨s, b₁, hrun₁, hwin⟩ := create2ndBitmap_spec hok hb hr hc.2 (h8 hc.1)
      (show c.endPfn ≤ c.startPfn + 8 * bufsizeCyclic by omega) hfuel hpend elf (junk c)
    obtain ⟨ws, b₂, hrun₂, hok₂⟩ := createWindows_spec hok hb hr hpos hfuel elf junk
      (PfnCycle.updateCycle (bufsizeCyclic * 8) m.maxMapnr c) rfl
      (by
        intro hlt
        simp only [PfnCycle.updateCycle] at hlt ⊢
        rw [show c.endPfn = c.startPfn + bufsizeCyclic * 8 by omega]
        exact Nat.dvd_add (h8 hc.1) (Nat.dvd_mul_left 8 _)) hwin.pends
    refine ⟨(c, s.buf) :: ws, fun e => if EndsIn e c then b₁ e else b₂ e, ?_, ?_, ?_⟩
    · rw [createWindows, hrun₁]
      exact congrArg (fun r => r >>= fun ws => pure ((c, s.buf) :: ws)) hrun₂
    · refine List.forall_mem_cons.mpr ⟨fun e he hm hin => ?_, fun c' hc' e he hm hin => ?_⟩
      · rw [if_pos hin.1]
        exact hwin.slot e he hm hin
      · have hle := le_of_mem_cyclesFrom hc'
        simp only [PfnCycle.updateCycle] at hle
        have hno : ¬ EndsIn e c := fun h => by
          have h1 := hin.1.2.1
          have h2 := h.2.2
          omega
        rw [if_neg hno]
        exact hok₂.slot c' hc' e he hm hin
    · intro b' hb' q
      have h₁ := hwin.bits b' (fun e he hin => by
        have hle : c.endPfn ≤ m.maxMapnr := by omega
        rw [hb' e he ⟨hin.1, hin.2.1, Nat.le_trans hin.2.2 hle⟩, if_pos hin]) q
      have h₂ := hok₂.bits b' (fun e he hin => by
        have hlow : c.endPfn < e.pfnEnd := hin.2.1
        rw [hb' e he ⟨hin.1, Nat.lt_trans hc.2 hlow, hin.2.2⟩, if_neg]
        intro h
        have := h.2.2
        omega) q
      have hdump : dumpable ((c, s.buf) :: ws) q =
          (isDumpableBuffer s.buf q c || dumpable ws q) := rfl
      rw [hdump, Bool.or_eq_true, h₁, h₂, ← or_and_right]
      refine and_congr_left fun _ => ?_
      simp only [PfnCycle.updateCycle]
      omega
  case isFalse hc =>
    refine ⟨[], fun _ => [], rfl, fun _ h => absurd h List.not_mem_nil, fun b' _ q => ?_⟩
    refine iff_of_false (by simp [dumpable]) ?_
    rintro ⟨⟨h1, h2⟩, -⟩
    omega
termination_by m.maxMapnr - c.startPfn
decreasing_by
  simp only [PfnCycle.updateCycle]
  omega

/-- **The 2nd bitmap**, whatever the windows are: a page is dumpable if it has memory, is in no excluded
block and is not dropped by the free lists or for its zeros. -/
theorem secondBitmap_spec (hok : MemMapsOk m)
    (hb : wantsPages m level = true → BlocksInside m level) (hr : ImageOk m) {bufsizeCyclic : Nat}
    (hpos : 0 < bufsizeCyclic) (hfuel : ∀ e ∈ m.memMaps, e.pfnEnd < fuel) (elf : Bool)
    (junk : PfnCycle → MemMap → Nat → List UInt8) :
    ∃ ws b, secondBitmap m elf level bufsizeCyclic fuel junk = .ok ws ∧
      RunOk m level elf 0 (m.info bufsizeCyclic).cycles junk ws b := by
  have hfirst : (m.info bufsizeCyclic).cycles = PfnCycle.cyclesFrom (bufsizeCyclic * 8) m.maxMapnr
      ⟨0, min (0 + bufsizeCyclic * 8) m.maxMapnr⟩ := by
    simp [Info.cycles, PfnCycle.forEachCycle, PfnCycle.firstCycle, PfnCycle.round, Image.info]
  have hstart : PendsAll m level 0 (0, 0) := by
    intro _
    refine ⟨fun e _ z hz => ?_, fun h => absurd h (Nat.lt_irrefl 0)⟩
    exact absurd hz.start_lt (Nat.not_lt_zero _)
  rw [secondBitmap, hfirst]
  exact createWindows_spec hok hb hr hpos hfuel elf junk
    ⟨0, min (0 + bufsizeCyclic * 8) m.maxMapnr⟩ rfl (fun _ => Nat.dvd_zero 8) hstart

end Bitmap
