import Makedumpfile.Bitmap.Proof.Cycles
import Makedumpfile.Bitmap.Proof.Failed

/-!
# Dump levels

A higher dump level takes an earlier branch at some pages, and then the block it excludes there is
another one. When the blocks that can be recognised are nested or disjoint, and a free block is not
smaller than a compound block with the same head, what a level excludes all higher levels exclude
(`Excluded.mono`, `levels_monotone`).
-/

namespace Bitmap

open Lib

variable {m : Image} {level level₁ level₂ : Nat} {elf : Bool} {e : MemMap} {k : Kernel}
  {page next : List UInt8} {pfn order : Nat}

/-! ## The tests -/

/-- The tests for other pages than free ones. -/
def otherTests (k : Kernel) (level : Nat) (p : Page) (dtor : Nat) : Bool :=
  (level.testBit dlExcludeCache && isCachePage k p && !testFlag k.pgPrivate p.flags && !isAnon k p) ||
    (level.testBit dlExcludeCachePri && isCachePage k p && !isAnon k p) ||
    (level.testBit dlExcludeUserData && (isAnon k p || isHugetlb k dtor)) ||
    isHwpoison k p || isOffline k p

/-- The order of a page by the tests for free pages. -/
def freeOrder (k : Kernel) (p : Page) : Option Nat :=
  if isBuddy k p then some p.priv
  else if isUnaccepted k p then some (unacceptedOrder k)
  else none

/-- A buddy page has a valid order. -/
def ValidOrder (k : Kernel) (p : Page) : Prop := isBuddy k p = true → validBuddyOrder k p = true

theorem excludeOrder_eq (hv : ValidOrder k (readPage k page)) :
    excludeOrder k level pfn page next =
      if (readPage k page).compoundHead.testBit 0 then none
      else
        match if level.testBit dlExcludeFree then freeOrder k (readPage k page) else none with
        | some order => some order
        | none =>
          if otherTests k level (readPage k page) (compoundOf k pfn (readPage k page) next).2 then
            some (compoundOf k pfn (readPage k page) next).1
          else none := by
  unfold excludeOrder freeOrder
  dsimp only
  generalize readPage k page = p at *
  generalize compoundOf k pfn p next = r
  have hother : ∀ o : Nat,
      (if (level.testBit dlExcludeCache && isCachePage k p && !testFlag k.pgPrivate p.flags &&
          !isAnon k p) = true then some o
        else if (level.testBit dlExcludeCachePri && isCachePage k p && !isAnon k p) = true then some o
        else if (level.testBit dlExcludeUserData && (isAnon k p || isHugetlb k r.2)) = true then some o
        else if isHwpoison k p = true then some o
        else if isOffline k p = true then some o
        else none) = if otherTests k level p r.2 then some o else none := by
    intro o
    unfold otherTests
    grind
  rw [hother]
  cases hl : level.testBit dlExcludeFree with
  | false => simp
  | true =>
    cases hbuddy : isBuddy k p with
    | true => simp [hv hbuddy]
    | false =>
      cases isUnaccepted k p with
      | true => simp
      | false => simp

theorem testBit_mono (hle : level₁ &&& level₂ = level₁) {i : Nat} (hi : level₁.testBit i = true) :
    level₂.testBit i = true := by
  rw [← hle, Nat.testBit_and, Bool.and_eq_true] at hi
  exact hi.2

theorem otherTests_mono (hle : level₁ &&& level₂ = level₁) {p : Page} {dtor : Nat}
    (h : otherTests k level₁ p dtor = true) : otherTests k level₂ p dtor = true := by
  have hbit := fun i (hi : level₁.testBit i = true) => testBit_mono hle hi
  have h1 := hbit dlExcludeCache
  have h2 := hbit dlExcludeCachePri
  have h3 := hbit dlExcludeUserData
  unfold otherTests at h ⊢
  simp only [Bool.or_eq_true, Bool.and_eq_true] at h ⊢
  grind

theorem wantsPages_mono (hle : level₁ &&& level₂ = level₁) (h : wantsPages m level₁ = true) :
    wantsPages m level₂ = true := by
  have hbit := fun i (hi : level₁.testBit i = true) => testBit_mono hle hi
  have h1 := hbit dlExcludeCache
  have h2 := hbit dlExcludeCachePri
  have h3 := hbit dlExcludeUserData
  have h4 := hbit dlExcludeFree
  unfold wantsPages at h ⊢
  simp only [Bool.or_eq_true, Bool.and_eq_true] at h ⊢
  grind

/-! ## The blocks that can be recognised -/

variable (m) in
/-- A page of a `mem_map` that is looked at and no tail of a compound block. -/
structure Looked (e : MemMap) (pfn : Nat) : Prop where
  mem : e ∈ m.memMaps
  mapped : e.mapped = true
  start : e.pfnStart ≤ pfn
  lt : pfn < e.pfnEnd
  seg : isInSegs m pfn = true
  head : (readPage m.kernel (m.structPage pfn)).compoundHead.testBit 0 = false

variable (m) in
/-- The compound order of a page. -/
def compoundOrder (e : MemMap) (pfn : Nat) : Nat :=
  (compoundOf m.kernel pfn (readPage m.kernel (m.structPage pfn)) (nextPage m e [] pfn)).1

variable (m) in
/-- A free, unaccepted or compound block that can be recognised at its head; `order` 0 is a single
page. -/
def Recognised (e : MemMap) (pfn order : Nat) : Prop :=
  Looked m e pfn ∧
    (freeOrder m.kernel (readPage m.kernel (m.structPage pfn)) = some order ∨
      compoundOrder m e pfn = order)

variable (m) in
/-- The blocks that can be recognised are valid in order, inside their `mem_map` and nested or
disjoint. -/
structure BlocksOk : Prop where
  valid : ∀ e pfn, Looked m e pfn → ValidOrder m.kernel (readPage m.kernel (m.structPage pfn))
  small : ∀ e pfn order, Recognised m e pfn order → order ≤ 30
  inside : ∀ e pfn order, Recognised m e pfn order → pfn + 2 ^ order ≤ e.pfnEnd
  nested : ∀ e pfn pfn' order order', Recognised m e pfn order → Recognised m e pfn' order' →
    pfn < pfn' → pfn' < pfn + 2 ^ order → pfn' + 2 ^ order' ≤ pfn + 2 ^ order

variable (m) in
/-- A free block is not smaller than a compound block with the same head. -/
def FreeNotSmaller : Prop :=
  ∀ e pfn order, Looked m e pfn →
    freeOrder m.kernel (readPage m.kernel (m.structPage pfn)) = some order →
    compoundOrder m e pfn ≤ order

variable (m) in
/-- No `mem_map` ends with a compound head, for which the page buffer is read behind its end. -/
def NoHeadAtEnd : Prop :=
  ∀ e ∈ m.memMaps, e.mapped = true → e.pfnStart < e.pfnEnd →
    (e.pfnEnd - 1) % pgmmCached < pgmmCached - 1 →
    isCompoundHead m.kernel (readPage m.kernel (m.structPage (e.pfnEnd - 1))).flags = false

/-- What is behind the last page does not matter. -/
theorem compoundOf_next (hend : NoHeadAtEnd m) (he : e ∈ m.memMaps) (hm : e.mapped = true)
    (h1 : e.pfnStart ≤ pfn) (h2 : pfn < e.pfnEnd) (b b' : List UInt8) :
    compoundOf m.kernel pfn (readPage m.kernel (m.structPage pfn)) (nextPage m e b pfn) =
      compoundOf m.kernel pfn (readPage m.kernel (m.structPage pfn)) (nextPage m e b' pfn) := by
  by_cases hlast : pfn + 1 < e.pfnEnd
  · unfold nextPage
    rw [if_pos hlast, if_pos hlast]
  · obtain rfl : pfn = e.pfnEnd - 1 := by omega
    have hno := hend e he hm (by omega)
    unfold compoundOf
    split
    case isTrue h => exact absurd h.2 (Bool.eq_false_iff.mp (hno h.1))
    case isFalse h => rfl

theorem looked_of_order (he : e ∈ m.memMaps) (hm : e.mapped = true) (h1 : e.pfnStart ≤ pfn)
    (h2 : pfn < e.pfnEnd) {b : List UInt8} (h : orderAt m level e b pfn = some order) :
    Looked m e pfn := by
  unfold orderAt at h
  split at h
  case isTrue hs =>
    refine ⟨he, hm, h1, h2, hs, ?_⟩
    rw [Bool.eq_false_iff]
    intro htail
    unfold excludeOrder at h
    simp only [htail, if_true] at h
    cases h
  case isFalse => cases h

/-! ## Two levels -/

section Two

variable (hok : BlocksOk m) (hend : NoHeadAtEnd m)

include hok hend

/-- The order of a page that is looked at. -/
theorem orderAt_looked (h : Looked m e pfn) (b : List UInt8) :
    orderAt m level e b pfn =
      match if level.testBit dlExcludeFree then
          freeOrder m.kernel (readPage m.kernel (m.structPage pfn)) else none with
      | some order => some order
      | none =>
        if otherTests m.kernel level (readPage m.kernel (m.structPage pfn))
            (compoundOf m.kernel pfn (readPage m.kernel (m.structPage pfn))
              (nextPage m e [] pfn)).2 then some (compoundOrder m e pfn) else none := by
  unfold orderAt compoundOrder
  rw [if_pos h.seg, excludeOrder_eq (hok.valid e pfn h), h.head, if_neg Bool.false_ne_true,
    compoundOf_next hend h.mem h.mapped h.start h.lt b []]

theorem orderAt_recognised (h : Looked m e pfn) {b : List UInt8}
    (ho : orderAt m level e b pfn = some order) : Recognised m e pfn order := by
  rw [orderAt_looked hok hend h] at ho
  refine ⟨h, ?_⟩
  split at ho
  case h_1 order' hfree =>
    split at hfree
    · exact .inl (hfree.trans ho)
    · cases hfree
  case h_2 =>
    split at ho
    · exact .inr (Option.some.inj ho)
    · cases ho

/-- A higher level excludes a block that is not smaller. -/
theorem orderAt_mono (hfree : FreeNotSmaller m) (hle : level₁ &&& level₂ = level₁)
    (h : Looked m e pfn) {b b' : List UInt8} (ho : orderAt m level₁ e b pfn = some order) :
    ∃ order', orderAt m level₂ e b' pfn = some order' ∧ order ≤ order' := by
  have hbit : level₁.testBit dlExcludeFree = true → level₂.testBit dlExcludeFree = true :=
    testBit_mono hle
  have hsmaller := hfree e pfn
  rw [orderAt_looked hok hend h] at ho ⊢
  cases ho₂ : freeOrder m.kernel (readPage m.kernel (m.structPage pfn)) with
  | none =>
    simp only [ho₂, ite_self] at ho ⊢
    split at ho
    case isTrue htest =>
      rw [if_pos (otherTests_mono hle htest)]
      exact ⟨_, rfl, (Option.some.inj ho).ge⟩
    case isFalse => cases ho
  | some order' =>
    have hsize := hsmaller order' h ho₂
    rw [ho₂] at ho
    cases hl₂ : level₂.testBit dlExcludeFree with
    | true =>
      refine ⟨order', rfl, ?_⟩
      split at ho
      case h_1 o hfree =>
        split at hfree
        · obtain rfl := Option.some.inj hfree
          exact (Option.some.inj ho).ge
        · cases hfree
      case h_2 =>
        split at ho
        · exact (Option.some.inj ho) ▸ hsize
        · cases ho
    | false =>
      have hl₁ : level₁.testBit dlExcludeFree = false := by
        rw [Bool.eq_false_iff]
        intro hl₁
        rw [hbit hl₁] at hl₂
        cases hl₂
      simp only [hl₁, Bool.false_eq_true, if_false] at ho ⊢
      split at ho
      case isTrue htest =>
        rw [if_pos (otherTests_mono hle htest)]
        exact ⟨_, rfl, (Option.some.inj ho).ge⟩
      case isFalse => cases ho

theorem BlocksOk.blocksInside (level : Nat) : BlocksInside m level := by
  intro e he hm pfn h1 h2 b order ho
  have hl := looked_of_order he hm h1 h2 ho
  have hr := orderAt_recognised hok hend hl ho
  rw [shiftOne_small (hok.small e pfn order hr)]
  exact ⟨Nat.two_pow_pos order, hok.inside e pfn order hr⟩

/-- The loop moves on by the block that is excluded. -/
theorem blockLen_of_order (he : e ∈ m.memMaps) (hm : e.mapped = true) (h1 : e.pfnStart ≤ pfn)
    (h2 : pfn < e.pfnEnd) {b : List UInt8} (ho : orderAt m level e b pfn = some order) :
    blockLen m level e pfn = 2 ^ order := by
  have hl := looked_of_order he hm h1 h2 ho
  rw [← shiftOne_eq_blockLen (hok.blocksInside hend level) he hm h1 h2 ho,
    shiftOne_small (hok.small e pfn order (orderAt_recognised hok hend hl ho))]

/-- What a level excludes every higher level excludes. -/
theorem Excluded.mono (hfree : FreeNotSmaller m) (hle : level₁ &&& level₂ = level₁)
    (he : e ∈ m.memMaps) (hm : e.mapped = true) {b b' : List UInt8}
    (h : Excluded m level₁ e b pfn) : Excluded m level₂ e b' pfn := by
  have hlt := (h.mem (hok.blocksInside hend level₁) he hm).2
  have hlen {level p : Nat} {b : List UInt8} (h1 : e.pfnStart ≤ p) (h : IsHead m level e b p) :
      ∃ order, orderAt m level e b p = some order ∧ Looked m e p ∧
        blockLen m level e p = 2 ^ order := by
    obtain ⟨order, ho⟩ := Option.isSome_iff_exists.mp h.2
    exact ⟨order, ho, looked_of_order he hm h1 h.1 ho,
      blockLen_of_order hok hend he hm h1 h.1 ho⟩
  refine Covered.mono (blockLen_pos m level₁ e) (blockLen_pos m level₂ e) ?_ ?_ ?_ h
  · intro p h1 h2 hsel
    obtain ⟨order, ho, hl, hlen₁⟩ := hlen h1 hsel
    obtain ⟨order', ho', hle'⟩ :
        ∃ order', orderAt m level₂ e b' p = some order' ∧ order ≤ order' :=
      orderAt_mono hok hend hfree hle hl ho
    refine ⟨⟨hsel.1, by rw [ho']; rfl⟩, ?_⟩
    rw [hlen₁, blockLen_of_order hok hend he hm h1 hsel.1 ho']
    exact Nat.pow_le_pow_right Nat.two_pos hle'
  · intro p h1 h2 hno
    have hp : p < e.pfnEnd := Nat.lt_of_le_of_lt h2 hlt
    have hnone : orderAt m level₂ e b' p = none := by
      by_contra hsome
      exact hno ⟨hp, Option.isSome_iff_ne_none.mpr hsome⟩
    exact blockLen_of_none (hok.blocksInside hend level₂) he hm h1 hp hnone
  · intro p q h1 h2 h3 hp hq hlt'
    obtain ⟨i, hi, hl, hlen₁⟩ := hlen h1 hp
    obtain ⟨j, hj, hl', hlen₂⟩ := hlen (by omega) hq
    rw [hlen₁, hlen₂]
    rw [hlen₁] at hlt'
    exact hok.nested e p q i j (orderAt_recognised hok hend hl hi)
      (orderAt_recognised hok hend hl' hj) h2 hlt'

/-- What a level keeps every lower level keeps. -/
theorem Kept.mono (hfree : FreeNotSmaller m) (hle : level₁ &&& level₂ = level₁)
    {b b' : MemMap → List UInt8} (h : Kept m level₂ elf b pfn) : Kept m level₁ elf b' pfn := by
  obtain ⟨hmem, hex, hlist, hzero⟩ := h
  refine ⟨hmem, ?_, ?_, ?_⟩
  · rintro ⟨hw, e, he, hm, hin⟩
    exact hex ⟨wantsPages_mono hle hw, e, he, hm, hin.mono hok hend hfree hle he hm⟩
  · rintro ⟨hl, hin⟩
    rw [Bool.and_eq_true] at hl
    refine hlist ⟨?_, hin⟩
    rw [Bool.and_eq_true]
    exact ⟨testBit_mono hle hl.1, hl.2⟩
  · rintro ⟨hl, hin⟩
    rw [Bool.and_eq_true] at hl
    refine hzero ⟨?_, hin⟩
    rw [Bool.and_eq_true]
    exact ⟨testBit_mono hle hl.1, hl.2⟩

end Two

variable (m elf level₁ level₂) in
/-- **Dump levels are monotone** for two levels: the runs end, whatever `malloc` leaves in the page
buffers, and when both create a bitmap, every page that is dumpable at the second level is dumpable at
the first one. -/
def LevelsMonotone : Prop :=
  ∀ bufsizeCyclic > 0, ∀ junk₁ junk₂ : PfnCycle → MemMap → Nat → List UInt8, ∃ n, ∀ fuel ≥ n,
    secondBitmap m elf level₁ bufsizeCyclic fuel junk₁ ≠ .error .running ∧
    secondBitmap m elf level₂ bufsizeCyclic fuel junk₂ ≠ .error .running ∧
    ∀ ws₁ ws₂, secondBitmap m elf level₁ bufsizeCyclic fuel junk₁ = .ok ws₁ →
      secondBitmap m elf level₂ bufsizeCyclic fuel junk₂ = .ok ws₂ →
      ∀ pfn, dumpable ws₂ pfn = true → dumpable ws₁ pfn = true

theorem BlocksOk.readable (h : BlocksOk m) : BlocksOk m.readable := by
  have hl : ∀ {e pfn}, Looked m.readable e pfn → Looked m e pfn :=
    fun h => ⟨h.mem, h.mapped, h.start, h.lt, h.seg, h.head⟩
  have hr : ∀ {e pfn order}, Recognised m.readable e pfn order → Recognised m e pfn order :=
    fun h => ⟨hl h.1, h.2⟩
  exact ⟨fun e pfn hp => h.valid e pfn (hl hp), fun e pfn order hp => h.small e pfn order (hr hp),
    fun e pfn order hp => h.inside e pfn order (hr hp),
    fun e pfn pfn' order order' hp hp' => h.nested e pfn pfn' order order' (hr hp) (hr hp')⟩

theorem FreeNotSmaller.readable (h : FreeNotSmaller m) : FreeNotSmaller m.readable :=
  fun e pfn order hl => h e pfn order ⟨hl.mem, hl.mapped, hl.start, hl.lt, hl.seg, hl.head⟩

/-- Four pages. The first one is a poisoned compound head of order 1, and also a free block of order
`priv`; the second one is its tail. -/
def freeHead (priv : UInt8) : Image where
  pageShift := 12
  maxMapnr := 4
  extents := [{ physStart := 0, physEnd := 0x4000, fileOffset := 0x1000, fileSize := 0x4000 }]
  kernel := { version := kernelVersion 4 16 0, flags := 0, compoundHead := some 8, mapping := 16
              mapcount := some 24, refcount := 28, priv := some 32, compoundOrderOffset := 40
              freeAreaLength := some 11, pgHeadMask := 0x10000, pgHwpoison := 3
              pageBuddyMapcount := -128 }
  memMaps := [⟨true, 0, 4⟩]
  structPage := fun pfn =>
    if pfn = 0 then [8, 0, 1, 0, 0, 0, 0, 0] ++ List.replicate 16 0 ++ [0x80, 0xff, 0xff, 0xff] ++
      List.replicate 4 0 ++ [priv] ++ List.replicate 15 0
    else if pfn = 1 then List.replicate 8 0 ++ [1] ++ List.replicate 31 0 ++ [1] ++ List.replicate 7 0
    else List.replicate 48 0

/-- Order 0 or 1. -/
theorem freeHead_orders {priv : UInt8} (hp : priv = 0 ∨ priv = 1) : ∀ p < 4,
    freeOrder (freeHead priv).kernel (readPage (freeHead priv).kernel
        ((freeHead priv).structPage p)) = (if p = 0 then some priv.toNat else none) ∧
      compoundOrder (freeHead priv) ⟨true, 0, 4⟩ p = if p = 0 then 1 else 0 := by
  rcases hp with rfl | rfl
  · decide +kernel
  · decide +kernel

theorem freeHead_recognised {priv : UInt8} (hp : priv = 0 ∨ priv = 1)
    (h : Recognised (freeHead priv) e pfn order) :
    e = ⟨true, 0, 4⟩ ∧ (pfn = 0 ∧ order ≤ 1 ∨ pfn < 4 ∧ order = 0) := by
  obtain ⟨hl, h⟩ := h
  obtain rfl := List.mem_singleton.mp hl.mem
  refine ⟨rfl, ?_⟩
  obtain ⟨hfree, hcomp⟩ := freeHead_orders hp pfn hl.lt
  have hlt : pfn < 4 := hl.lt
  rw [hfree, hcomp] at h
  by_cases h0 : pfn = 0
  · rw [if_pos h0, if_pos h0] at h
    refine .inl ⟨h0, ?_⟩
    rcases h with h | rfl
    · obtain rfl := Option.some.inj h
      rcases hp with rfl | rfl
      · decide
      · decide
    · exact Nat.le_refl 1
  · rw [if_neg h0, if_neg h0] at h
    rcases h with h | h
    · cases h
    · exact .inr ⟨hlt, h.symm⟩

theorem freeHead_ok {priv : UInt8} (hp : priv = 0 ∨ priv = 1) :
    MemMapsOk (freeHead priv) ∧ BlocksOk (freeHead priv) ∧ NoHeadAtEnd (freeHead priv) := by
  refine ⟨⟨List.pairwise_singleton _ _, ?_, ?_⟩, ⟨?_, ?_, ?_, ?_⟩, ?_⟩
  · intro e he
    rw [List.mem_singleton.mp he]
    decide
  · intro e he
    rw [List.mem_singleton.mp he]
    decide
  · intro e pfn hl
    obtain rfl := List.mem_singleton.mp hl.mem
    have hall : ∀ p < 4, ValidOrder (freeHead priv).kernel (readPage (freeHead priv).kernel
        ((freeHead priv).structPage p)) := by
      unfold ValidOrder
      rcases hp with rfl | rfl
      · decide +kernel
      · decide +kernel
    exact hall pfn hl.lt
  · intro e pfn order h
    obtain ⟨-, h⟩ := freeHead_recognised hp h
    omega
  · intro e pfn order h
    obtain ⟨rfl, ⟨rfl, ho⟩ | ⟨hlt, rfl⟩⟩ := freeHead_recognised hp h
    · have := Nat.pow_le_pow_right Nat.two_pos ho
      simp only
      omega
    · simp only
      omega
  · intro e pfn pfn' order order' h h' hlt hin
    obtain ⟨-, ⟨rfl, ho⟩ | ⟨-, rfl⟩⟩ := freeHead_recognised hp h
    · have hpow := Nat.pow_le_pow_right Nat.two_pos ho
      obtain ⟨-, ⟨rfl, -⟩ | ⟨-, rfl⟩⟩ := freeHead_recognised hp h'
      · omega
      · omega
    · omega
  · intro e he hm hlt
    rw [List.mem_singleton.mp he]
    intro
    rcases hp with rfl | rfl
    · decide +kernel
    · decide +kernel

end Bitmap
