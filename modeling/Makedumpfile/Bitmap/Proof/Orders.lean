import Makedumpfile.Bitmap.Proof.Nodata

/-!
# The exclusion loop and bad orders

The orders that `__exclude_unnecessary_pages` shifts by come from the dumped memory. A compound order
is checked to be below 64, a buddy order to be one of the zone's, if their number is known, and the
order of an unaccepted block is that number less one, known or not. Up to order 30 the loop goes on by
the block (`excludeBlock_small`); from 32 on `1 << order` is zero and the loop stays where it is, and
with 31 the end of the block wraps around. So **the loop survives** exactly if every block it excludes
has an order of at most 30 (`survives_iff`).
-/

namespace Bitmap

open Lib

/-! ## One round -/

/-- The two's complement reading of `1 << n`. -/
theorem shiftOne_eq (n : Nat) : shiftOne n = uint64 (i32 (2 ^ n)) := by
  unfold shiftOne
  by_cases h1 : n < 31
  · rw [if_pos h1]
    have hle : 2 ^ n ≤ 2 ^ 30 := Nat.pow_le_pow_right (by decide) (by omega)
    unfold uint64 i32
    norm_cast
    generalize 2 ^ n = x at hle ⊢
    omega
  · rw [if_neg h1]
    by_cases h2 : n = 31
    · subst h2
      rfl
    · obtain ⟨k, rfl⟩ : ∃ k, n = 32 + k := ⟨n - 32, by omega⟩
      rw [if_neg h2]
      unfold uint64 i32
      rw [Int.pow_add]
      omega

theorem shiftOne_small {n : Nat} (h : n ≤ 30) : shiftOne n = 2 ^ n := by
  unfold shiftOne
  rw [if_pos (by omega)]

theorem u64_of_lt {n : Nat} (h : n < 2 ^ 64) : u64 n = n := Nat.mod_eq_of_lt h

variable {m : Image} {level : Nat} {c : PfnCycle} {pfnEnd : Nat} {l l' l0 : PageLoop} {order : Nat}

variable (m level c pfnEnd) in
/-- The order of the block that a round excludes. -/
def headOrder (l : PageLoop) : Option Nat :=
  if isCyclicRegion l.pfn c && isInSegs m l.pfn then
    (fetch m pfnEnd l.pfn l.cache).bind (pageOrder m level l.pfn)
  else none

/-- **What a round does.** -/
theorem scanPage_cases (h : scanPage m level c pfnEnd l = some l') :
    (headOrder m level c pfnEnd l = none ∧ l'.pfn = u64 (l.pfn + 1) ∧ l'.scan = l.scan) ∨
    ∃ order, headOrder m level c pfnEnd l = some order ∧
      (l'.scan, l'.pfn) = excludeBlock l.pfn order c l.scan := by
  unfold scanPage at h
  unfold headOrder
  cases hc : isCyclicRegion l.pfn c with
  | false =>
    simp only [hc, Bool.not_false, if_true] at h
    cases h
    exact .inl ⟨rfl, rfl, rfl⟩
  | true =>
    cases hs : isInSegs m l.pfn with
    | false =>
      simp only [hc, hs, Bool.not_false, Bool.not_true, if_true] at h
      cases h
      exact .inl ⟨rfl, rfl, rfl⟩
    | true =>
      simp only [hc, hs, Bool.not_true] at h
      cases hf : fetch m pfnEnd l.pfn l.cache with
      | none => simp [hf] at h
      | some cache =>
        simp only [hf] at h
        cases ho : pageOrder m level l.pfn cache with
        | none =>
          simp only [ho] at h
          cases h
          exact .inl ⟨by simp [ho], rfl, rfl⟩
        | some order =>
          simp only [ho] at h
          cases h
          exact .inr ⟨order, by simp [ho], rfl⟩

theorem scanPage_of_headOrder (h : headOrder m level c pfnEnd l = some order) :
    ∃ l', scanPage m level c pfnEnd l = some l' := by
  unfold headOrder at h
  split at h
  case isTrue hcs =>
    rw [Bool.and_eq_true] at hcs
    obtain ⟨cache, hf, ho⟩ := Option.bind_eq_some_iff.1 h
    unfold scanPage
    simp [hcs.1, hcs.2, hf, ho]
  case isFalse => cases h

/-- A block of a small order: its bits are cleared, as far as they are in the window, the loop goes on
behind it, and what is behind the window waits. -/
theorem excludeBlock_small {pfn : Nat} {s : Scan} (ho : order ≤ 30) (hp : pfn < 2 ^ 52)
    (hl : c.endPfn ≤ c.startPfn + 8 * s.buf.length) :
    (excludeBlock pfn order c s).2 = pfn + 2 ^ order ∧
    (∀ q, isDumpableBuffer (excludeBlock pfn order c s).1.buf q c = true ↔
      isDumpableBuffer s.buf q c = true ∧ ¬ (pfn ≤ q ∧ q < pfn + 2 ^ order)) ∧
    (order ≠ 0 → (excludeBlock pfn order c s).1.excludePfnStart = c.endPfn ∧
      (excludeBlock pfn order c s).1.excludePfnEnd = pfn + 2 ^ order) := by
  have hle : 2 ^ order ≤ 2 ^ 30 := Nat.pow_le_pow_right (by decide) ho
  unfold excludeBlock
  rw [shiftOne_small ho]
  cases order with
  | zero =>
    refine ⟨u64_of_lt (by omega), fun q => ?_, fun h => absurd rfl h⟩
    rw [if_pos (Nat.pow_zero 2)]
    show isDumpableBuffer (clearBit s.buf pfn c) q c = true ↔ _
    rw [isDumpable_clearBit hl]
    simp only [Bool.and_eq_true, decide_eq_true_eq, Nat.pow_zero]
    constructor
    · rintro ⟨h1, h2⟩
      exact ⟨h1, by omega⟩
    · rintro ⟨h1, h2⟩
      exact ⟨h1, by omega⟩
  | succ n =>
    have hne : 2 ^ (n + 1) ≠ 1 := by
      have := Nat.two_pow_pos n
      rw [Nat.pow_succ]
      omega
    rw [if_neg hne, u64_of_lt (by omega)]
    refine ⟨rfl, fun q => ?_, fun _ => ⟨rfl, rfl⟩⟩
    show isDumpableBuffer (clearRange s.buf pfn (min (pfn + 2 ^ (n + 1)) c.endPfn - pfn) c) q c =
      true ↔ _
    rw [isDumpable_clearRange q _ _ _ hl]
    simp only [Bool.and_eq_true, Bool.not_eq_true', decide_eq_false_iff_not]
    refine and_congr_right fun hq => not_congr ?_
    -- a bit of the window is before its end
    unfold isDumpableBuffer isCyclicRegion at hq
    simp only [Bool.and_eq_true, decide_eq_true_eq] at hq
    omega

/-! ## The rounds -/

variable (m level c pfnEnd) in
/-- The states of the loop. -/
inductive Reached (l0 : PageLoop) : PageLoop → Prop where
  | start : Reached l0 l0
  | round {l l' : PageLoop} : Reached l0 l → l.pfn < pfnEnd → scanPage m level c pfnEnd l = some l' →
      Reached l0 l'

theorem length_excludeBlock (pfn order : Nat) (c : PfnCycle) (s : Scan) :
    (excludeBlock pfn order c s).1.buf.length = s.buf.length := by
  unfold excludeBlock
  split
  · exact length_clearBit _ _ _
  · exact length_clearRange _ _ _ _

theorem Reached.length_buf (h : Reached m level c pfnEnd l0 l) :
    l.scan.buf.length = l0.scan.buf.length := by
  induction h with
  | start => rfl
  | @round l l' _ _ hr ih =>
    rw [← ih]
    obtain ⟨-, -, hs⟩ | ⟨order, -, hs⟩ := scanPage_cases hr
    · rw [hs]
    · rw [show l'.scan = _ from congrArg Prod.fst hs]
      exact length_excludeBlock _ _ _ _

variable (m level c) in
/-- Every block that the loop excludes has an order of at most 30. -/
def SmallOrders (junk : Nat → List UInt8) (mmd : MemMap) (s : Scan) : Prop :=
  ∀ l, Reached m level c mmd.pfnEnd (startPages c junk mmd s) l → l.pfn < mmd.pfnEnd →
    ∀ order, headOrder m level c mmd.pfnEnd l = some order → order ≤ 30

variable (m level c) in
/-- **The loop survives.** The function returns; the examined `pfn` increases with every round; an
excluded block of order `k` is exactly `[pfn, pfn + 2^k)`, its bits in the window cleared and its end
remembered for the next window, so nothing below its head is cleared; and other rounds, and the pending
exclusion before the first one, clear nothing else. -/
structure Survives (junk : Nat → List UInt8) (mmd : MemMap) (s : Scan) : Prop where
  returns : ∃ fuel, excludePages m level c fuel junk mmd s ≠ .error .running
  increases : ∀ l l', Reached m level c mmd.pfnEnd (startPages c junk mmd s) l → l.pfn < mmd.pfnEnd →
    scanPage m level c mmd.pfnEnd l = some l' → l.pfn < l'.pfn
  block : ∀ l l' order, Reached m level c mmd.pfnEnd (startPages c junk mmd s) l →
    l.pfn < mmd.pfnEnd → headOrder m level c mmd.pfnEnd l = some order →
    scanPage m level c mmd.pfnEnd l = some l' →
    (∀ q, isDumpableBuffer l'.scan.buf q c = true ↔
      isDumpableBuffer l.scan.buf q c = true ∧ ¬ (l.pfn ≤ q ∧ q < l.pfn + 2 ^ order)) ∧
    (order ≠ 0 → l'.scan.excludePfnStart = c.endPfn ∧ l'.scan.excludePfnEnd = l.pfn + 2 ^ order)
  below : ∀ l l' order, Reached m level c mmd.pfnEnd (startPages c junk mmd s) l →
    l.pfn < mmd.pfnEnd → headOrder m level c mmd.pfnEnd l = some order →
    scanPage m level c mmd.pfnEnd l = some l' →
    ∀ q < l.pfn, isDumpableBuffer l'.scan.buf q c = isDumpableBuffer l.scan.buf q c
  other : ∀ l l', Reached m level c mmd.pfnEnd (startPages c junk mmd s) l → l.pfn < mmd.pfnEnd →
    headOrder m level c mmd.pfnEnd l = none → scanPage m level c mmd.pfnEnd l = some l' →
    l'.scan = l.scan
  pending : ∀ q, isDumpableBuffer (startPages c junk mmd s).scan.buf q c = true ↔
    isDumpableBuffer s.buf q c = true ∧
      ¬ (s.pending ∧ s.excludePfnStart ≤ q ∧ q < s.excludePfnEnd)

section Small

variable {junk : Nat → List UInt8} {mmd : MemMap} {s : Scan}

theorem length_startPages :
    (startPages c junk mmd s).scan.buf.length = s.buf.length := by
  unfold startPages
  split
  · exact length_clearRange _ _ _ _
  · rfl

theorem SmallOrders.increases (h : SmallOrders m level c junk mmd s) (hend : mmd.pfnEnd ≤ 2 ^ 52)
    (hl : c.endPfn ≤ c.startPfn + 8 * s.buf.length)
    (hr : Reached m level c mmd.pfnEnd (startPages c junk mmd s) l) (hp : l.pfn < mmd.pfnEnd)
    (hs : scanPage m level c mmd.pfnEnd l = some l') : l.pfn < l'.pfn := by
  have hlen := hr.length_buf.trans length_startPages
  obtain ⟨-, hpfn, -⟩ | ⟨order, ho, hblock⟩ := scanPage_cases hs
  · rw [hpfn, u64_of_lt (by omega)]
    omega
  · obtain ⟨hnext, -, -⟩ := @excludeBlock_small c order l.pfn l.scan (h l hr hp order ho) (by omega)
      (by rw [hlen]; exact hl)
    rw [show l'.pfn = _ from congrArg Prod.snd hblock, hnext]
    exact Nat.lt_add_of_pos_right (Nat.two_pow_pos _)

/-- **The loop ends**: the distance to the end is enough fuel. -/
theorem SmallOrders.returns (h : SmallOrders m level c junk mmd s) (hend : mmd.pfnEnd ≤ 2 ^ 52)
    (hl : c.endPfn ≤ c.startPfn + 8 * s.buf.length) : ∀ (fuel : Nat) (l : PageLoop),
    Reached m level c mmd.pfnEnd (startPages c junk mmd s) l → mmd.pfnEnd - l.pfn < fuel →
    scanPages m level c mmd.pfnEnd fuel l ≠ .error .running
  | 0, _, _, hf => absurd hf (Nat.not_lt_zero _)
  | fuel + 1, l, hr, hf => by
    unfold scanPages
    split
    case isTrue hp =>
      split
      case h_1 => simp
      case h_2 l' hs =>
        have hlt := h.increases hend hl hr hp hs
        exact h.returns hend hl fuel l' (hr.round hp hs) (by omega)
    case isFalse => simp

theorem startPages_pending (hl : c.endPfn ≤ c.startPfn + 8 * s.buf.length) (q : Nat) :
    isDumpableBuffer (startPages c junk mmd s).scan.buf q c = true ↔
      isDumpableBuffer s.buf q c = true ∧
        ¬ (s.pending ∧ s.excludePfnStart ≤ q ∧ q < s.excludePfnEnd) := by
  unfold startPages
  split
  case isTrue hpend =>
    show isDumpableBuffer (clearRange s.buf s.excludePfnStart
      (min s.excludePfnEnd c.endPfn - s.excludePfnStart) c) q c = true ↔ _
    rw [isDumpable_clearRange q _ _ _ hl]
    simp only [Bool.and_eq_true, Bool.not_eq_true', decide_eq_false_iff_not]
    refine and_congr_right fun hq => not_congr ?_
    unfold isDumpableBuffer isCyclicRegion at hq
    simp only [Bool.and_eq_true, decide_eq_true_eq] at hq
    constructor
    · intro h
      exact ⟨hpend, by omega⟩
    · rintro ⟨-, h⟩
      omega
  case isFalse hpend => simp [hpend]

theorem SmallOrders.survives (h : SmallOrders m level c junk mmd s) (hend : mmd.pfnEnd ≤ 2 ^ 52)
    (hl : c.endPfn ≤ c.startPfn + 8 * s.buf.length) : Survives m level c junk mmd s := by
  have hblock : ∀ l l' order, Reached m level c mmd.pfnEnd (startPages c junk mmd s) l →
      l.pfn < mmd.pfnEnd → headOrder m level c mmd.pfnEnd l = some order →
      scanPage m level c mmd.pfnEnd l = some l' →
      (∀ q, isDumpableBuffer l'.scan.buf q c = true ↔
        isDumpableBuffer l.scan.buf q c = true ∧ ¬ (l.pfn ≤ q ∧ q < l.pfn + 2 ^ order)) ∧
      (order ≠ 0 → l'.scan.excludePfnStart = c.endPfn ∧
        l'.scan.excludePfnEnd = l.pfn + 2 ^ order) := by
    intro l l' order hr hp ho hs
    obtain ⟨hnone, -, -⟩ | ⟨order', ho', hscan⟩ := scanPage_cases hs
    · rw [ho] at hnone
      cases hnone
    · cases ho.symm.trans ho'
      obtain ⟨-, hbits⟩ := @excludeBlock_small c order l.pfn l.scan (h l hr hp order ho) (by omega)
        (by rw [hr.length_buf, length_startPages]; exact hl)
      rw [show l'.scan = _ from congrArg Prod.fst hscan]
      exact hbits
  refine ⟨⟨_, h.returns hend hl _ _ .start (Nat.lt_succ_self _)⟩,
    fun l l' hr hp hs => h.increases hend hl hr hp hs, hblock, ?_, ?_, startPages_pending hl⟩
  · intro l l' order hr hp ho hs q hq
    rw [Bool.eq_iff_iff, (hblock l l' order hr hp ho hs).1 q]
    exact and_iff_left (by omega)
  · intro l l' hr hp hnone hs
    obtain ⟨-, -, hscan⟩ | ⟨order, ho, -⟩ := scanPage_cases hs
    · exact hscan
    · rw [hnone] at ho
      cases ho

end Small

/-! ## Larger orders -/

/-- With an order from 32 on the loop does not move, and with 31 the block's end is not `pfn + 2^31`. -/
theorem Survives.smallOrders {junk : Nat → List UInt8} {mmd : MemMap} {s : Scan}
    (h : Survives m level c junk mmd s) (hend : mmd.pfnEnd ≤ 2 ^ 52) :
    SmallOrders m level c junk mmd s := by
  intro l hr hp order ho
  by_contra hbig
  obtain ⟨l', hs⟩ := scanPage_of_headOrder ho
  obtain ⟨hnone, -, -⟩ | ⟨order', ho', hscan⟩ := scanPage_cases hs
  · rw [ho] at hnone
    cases hnone
  · cases ho.symm.trans ho'
    by_cases h31 : order = 31
    · subst h31
      obtain ⟨-, hrest⟩ := h.block l l' 31 hr hp ho hs
      have hpfn := (hrest (by decide)).2
      rw [show l'.scan = _ from congrArg Prod.fst hscan] at hpfn
      have hend31 : u64 (l.pfn + (2 ^ 64 - 2 ^ 31)) = l.pfn + 2 ^ 31 := hpfn
      unfold u64 at hend31
      omega
    · have hzero : shiftOne order = 0 := by
        unfold shiftOne
        rw [if_neg (by omega), if_neg h31]
      have hlt := h.increases l l' hr hp hs
      have hpfn : l'.pfn = _ := congrArg Prod.snd hscan
      unfold excludeBlock at hpfn
      rw [hzero, if_neg (by decide)] at hpfn
      have hsame : l'.pfn = l.pfn := hpfn.trans (u64_of_lt (by omega))
      omega

/-- A `struct page` of 40 bytes: a free page of the buddy system with the order `priv`. -/
def buddyPage (priv : Nat) : List UInt8 :=
  List.replicate 24 0 ++ [0x80, 0xff, 0xff, 0xff] ++ List.replicate 4 0 ++ hostBytes false 8 priv

/-- Eight pages of memory, all of them free and of the order `priv`; the length of the zone's array is
not known. -/
def buddyImage (priv : Nat) : Image where
  pageShift := 12
  maxMapnr := 8
  extents := [{ physStart := 0, physEnd := 0x8000, fileOffset := 0x1000, fileSize := 0x8000 }]
  kernel := { flags := 0, refcount := 8, mapping := 16, mapcount := some 24, priv := some 32
              pageBuddyMapcount := -128 }
  memMaps := [⟨true, 0, 8⟩]
  structPage := fun _ => buddyPage priv

def wholeCycle : PfnCycle := ⟨0, 8⟩

def buddyStart (priv : Nat) : PageLoop :=
  startPages wholeCycle (fun _ => buddyPage priv) ⟨true, 0, 8⟩ { buf := [0xff] }

theorem fetch_same {b : List UInt8} {pfnEnd pfn : Nat} {pc pc' : PageCache}
    (hm : ∀ q, m.structPage q = b) (hpc : ∀ j, pc.entry j = b)
    (h : fetch m pfnEnd pfn pc = some pc') : ∀ j, pc'.entry j = b := by
  unfold fetch at h
  split at h
  · dsimp only at h
    generalize (if roundup (pfn + 1) pgmmCached < pfnEnd then pgmmCached - pfn % pgmmCached
      else pfnEnd - pfn) = n at h
    split at h
    · cases h
      intro j
      dsimp only
      split
      · exact hm _
      · exact hpc j
    · cases h
  · cases h
    exact hpc

/-- The buffer never holds anything but these pages. -/
theorem buddy_cache {priv : Nat}
    (h : Reached (buddyImage priv) 16 wholeCycle 8 (buddyStart priv) l) :
    ∀ j, l.cache.entry j = buddyPage priv := by
  induction h with
  | start => exact fun _ => rfl
  | @round l l' _ _ hr ih =>
    unfold scanPage at hr
    split at hr
    · cases hr
      exact ih
    · split at hr
      · cases hr
        exact ih
      · split at hr
        case h_1 => cases hr
        case h_2 cache hf =>
          have hcache := fetch_same (fun _ => rfl) ih hf
          split at hr
          · cases hr
            exact hcache
          · cases hr
            exact hcache

end Bitmap
