import Makedumpfile.Arch.X8664

/-!
# The page walk of x86_64 is the architecture's

Each block of `__vtop4_x86_64` is one level of the walk (`block_eq`), with the masks as remainders
and quotients (`toNat_and_entryMask`, `toNat_frame`); so the function is `pageWalk`, and `NOT_PADDR`
is never an address (`vtop4_spec`).
-/

namespace Arch.X8664

open Lib

variable {readmem : Word → Option Word} {la57 : Bool} {enc : Option (Fin 64)} {vaddr b e : Word}
  {s t : Nat} {large last : Bool}

/-! ## Masks -/

/-- The entry of a level. -/
theorem entry_paddr (t : Nat) (vaddr : Word) (s : Nat) :
    BitVec.ofNat 64 t + index s vaddr * 8#64 =
      BitVec.ofNat 64 (t + vaddr.toNat >>> s % 512 * 8) := by
  rw [add_index_mul, index, show (511#64 : Word) = lowMask 9 by decide,
    toNat_shift_and_lowMask _ _ (by decide)]
  rfl

theorem toNat_and_entryMask (e : Word) :
    (e &&& (machine readmem la57 enc).entryMask).toNat = address enc e := by
  have hmask : ∀ x : Word, (x &&& entryMask).toNat = x.toNat % 2 ^ 52 / 2 ^ 12 * 2 ^ 12 := by
    intro x
    rw [show entryMask = lowMask 52 &&& ~~~(lowMask 12) by decide, ← BitVec.and_assoc,
      toNat_and_not_lowMask _ (by decide), toNat_and_lowMask _ (by decide)]
  cases enc with
  | none => exact hmask e
  | some c =>
    rw [show (machine readmem la57 (some c)).entryMask = entryMask &&& ~~~(1#64 <<< c.val) from rfl,
      BitVec.and_comm entryMask, ← BitVec.and_assoc]
    exact hmask _

theorem and_entryMask (e : Word) :
    e &&& (machine readmem la57 enc).entryMask = BitVec.ofNat 64 (address enc e) := by
  rw [← @toNat_and_entryMask readmem la57 enc e, ofNat_toNat]

/-- The frame of a page with the address in it. -/
theorem toNat_frame (hs : s ≤ 64) {mask : Word} (hmask : mask = ~~~(lowMask s)) :
    ((e &&& (machine readmem la57 enc).entryMask &&& mask) + (vaddr &&& ~~~mask)).toNat =
      address enc e / 2 ^ s * 2 ^ s + vaddr.toNat % 2 ^ s := by
  rw [hmask, BitVec.not_not, toNat_high_add_low _ _ hs, toNat_and_entryMask]

theorem address_lt (enc : Option (Fin 64)) (e : Word) : address enc e < 2 ^ 52 :=
  Nat.lt_of_le_of_lt (Nat.div_mul_le_self _ _) (Nat.mod_lt _ (by decide))

theorem address_div (enc : Option (Fin 64)) (e : Word) :
    address enc e / 2 ^ 12 * 2 ^ 12 = address enc e := by
  unfold address
  rw [Nat.mul_div_cancel _ (by decide)]

theorem toNat_page (e vaddr : Word) :
    ((e &&& (machine readmem la57 enc).entryMask) + pageoffset vaddr).toNat =
      address enc e / 2 ^ 12 * 2 ^ 12 + vaddr.toNat % 2 ^ 12 := by
  have hlt := address_lt enc e
  have hmod := Nat.mod_lt vaddr.toNat (show 0 < 2 ^ 12 by decide)
  rw [BitVec.toNat_add, toNat_and_entryMask, pageoffset,
    show (4096#64 - 1#64 : Word) = lowMask 12 by decide, toNat_and_lowMask _ (by decide),
    address_div, Nat.mod_eq_of_lt (by omega)]

theorem and_pagePresent (e : Word) : (e &&& pagePresent = 0#64) ↔ e.getLsbD 0 = false :=
  and_bit_eq_zero (i := 0) e (by decide)

theorem and_pagePse (e : Word) : (e &&& pagePse = 0#64) ↔ e.getLsbD 7 = false :=
  and_bit_eq_zero (i := 7) e (by decide)

/-! ## Levels -/

/-- **A block of the function is a level of the walk**: the entry is looked up, and what follows is the
continuation. -/
theorem block_eq {ls : List (PageLevel Nat)} {cont : Word → Option Word}
    (hcont : ∀ e, (cont e).map BitVec.toNat =
      if last || large && e.getLsbD 7 then
        some (address enc e / 2 ^ s * 2 ^ s + vaddr.toNat % 2 ^ s)
      else pageWalk vaddr.toNat ls (address enc e)) :
    (((machine readmem la57 enc).present (BitVec.ofNat 64 t + index s vaddr * 8#64)).bind cont).map
        BitVec.toNat =
      pageWalk vaddr.toNat (level readmem enc s large last :: ls) t := by
  rw [entry_paddr, pageWalk_cons]
  simp only [level, Machine.present, machine]
  cases hread : readmem (BitVec.ofNat 64 (t + vaddr.toNat >>> s % 512 * 8)) with
  | none => rfl
  | some e =>
    simp only [Option.bind_eq_bind, Option.bind_some, decode, and_pagePresent]
    by_cases hpresent : e.getLsbD 0 = false
    · rw [if_pos hpresent, if_pos hpresent]
      rfl
    · rw [if_neg hpresent, if_neg hpresent, Option.bind_some, hcont e]
      by_cases hleaf : (last || large && e.getLsbD 7) = true
      · rw [if_pos hleaf, if_pos hleaf]
        rfl
      · rw [if_neg hleaf, if_neg hleaf]
        rfl

/-- The walk below the PGD, or below the P4D. -/
theorem vtopPud_eq (t : Nat) :
    ((machine readmem la57 enc).vtopPud vaddr (BitVec.ofNat 64 t)).map BitVec.toNat =
      pageWalk vaddr.toNat (lowerLevels readmem enc) t := by
  refine block_eq fun pud => ?_
  by_cases h1g : pud &&& pagePse = 0#64
  · rw [if_neg (not_not.2 h1g), (and_pagePse pud).1 h1g]
    rw [and_entryMask pud]
    refine block_eq fun pmd => ?_
    by_cases h2m : pmd &&& pagePse = 0#64
    · rw [if_neg (not_not.2 h2m), (and_pagePse pmd).1 h2m]
      rw [and_entryMask pmd]
      refine block_eq fun pte => ?_
      exact congrArg some (toNat_page pte vaddr)
    · rw [if_pos h2m, eq_true_of_ne_false (mt (and_pagePse pmd).2 h2m)]
      exact congrArg some (toNat_frame (by decide) rfl)
  · rw [if_pos h1g, eq_true_of_ne_false (mt (and_pagePse pud).2 h1g)]
    exact congrArg some (toNat_frame (by decide) rfl)

/-- The whole walk. -/
theorem vtop4?_eq (readmem : Word → Option Word) (la57 : Bool) (enc : Option (Fin 64))
    (vaddr pagetable : Word) :
    ((machine readmem la57 enc).vtop4? vaddr pagetable).map BitVec.toNat =
      pageWalk vaddr.toNat (levels readmem enc la57) pagetable.toNat := by
  obtain ⟨t, ht, hroot⟩ : ∃ t, pagetable.toNat = t ∧ pagetable = BitVec.ofNat 64 t :=
    ⟨_, rfl, (ofNat_toNat _).symm⟩
  rw [ht, hroot]
  cases la57 with
  | false =>
    refine block_eq fun pgd => ?_
    rw [and_entryMask pgd]
    exact vtopPud_eq _
  | true =>
    refine block_eq fun pgd => ?_
    rw [and_entryMask pgd]
    refine block_eq fun p4d => ?_
    rw [and_entryMask p4d]
    exact vtopPud_eq _

/-- The levels are ordered by size. -/
theorem levels_pairwise (readmem : Word → Option Word) (enc : Option (Fin 64)) (la57 : Bool) :
    (levels readmem enc la57).Pairwise fun l l' => l'.shift ≤ l.shift := by
  cases la57 <;> simp [levels, lowerLevels, level]

theorem decode_leaf {frame : Nat} (h : decode enc s large last e = .leaf frame) : frame < 2 ^ 52 := by
  unfold decode at h
  split at h
  · cases h
  · split at h
    · cases h
      exact Nat.lt_of_le_of_lt (Nat.div_mul_le_self _ _) (address_lt enc e)
    · cases h

/-- No address is `NOT_PADDR`. -/
theorem findLeaf_lt {va frame : Nat}
    (h : findLeaf va (levels readmem enc la57) t = some (frame, s)) :
    frame + va % 2 ^ s < 2 ^ 64 - 1 := by
  obtain ⟨l, hmem, rfl, e, he⟩ := findLeaf_mem h
  have hlevel : l.shift ≤ 48 ∧ frame < 2 ^ 52 := by
    cases la57 <;>
      simp only [levels, lowerLevels, List.mem_cons, List.not_mem_nil, or_false] at hmem <;>
      rcases hmem with rfl | rfl | rfl | rfl | rfl <;>
      exact ⟨by simp [level], decode_leaf he⟩
  have hmod := Nat.mod_lt va (Nat.two_pow_pos l.shift)
  have hpow : 2 ^ l.shift ≤ 2 ^ 48 := Nat.pow_le_pow_right (by decide) hlevel.1
  omega

theorem vtop4_of_findLeaf {pagetable : Word} {frame : Nat}
    (h : findLeaf vaddr.toNat (levels readmem enc la57) pagetable.toNat = some (frame, s)) :
    ((machine readmem la57 enc).vtop4 vaddr pagetable).toNat = frame + vaddr.toNat % 2 ^ s := by
  have hwalk := vtop4?_eq readmem la57 enc vaddr pagetable
  rw [pageWalk, h] at hwalk
  obtain ⟨pa, hpa, hnat⟩ := Option.map_eq_some_iff.1 hwalk
  rw [Machine.vtop4, hpa]
  exact hnat

/-- **`__vtop4_x86_64` translates as the architecture does**: `NOT_PADDR` exactly where the walk ends at
a table that cannot be read or at an entry that is not present, and the address of the leaf otherwise;
addresses in one leaf are as far apart physically as virtually. -/
theorem vtop4_spec (readmem : Word → Option Word) (la57 : Bool) (enc : Option (Fin 64))
    (vaddr pagetable : Word) :
    ((machine readmem la57 enc).vtop4 vaddr pagetable = notPaddr ↔
      findLeaf vaddr.toNat (levels readmem enc la57) pagetable.toNat = none) ∧
    ∀ frame s, findLeaf vaddr.toNat (levels readmem enc la57) pagetable.toNat = some (frame, s) →
      ((machine readmem la57 enc).vtop4 vaddr pagetable).toNat = frame + vaddr.toNat % 2 ^ s ∧
      ∀ vaddr' : Word, vaddr' >>> s = vaddr >>> s →
        (((machine readmem la57 enc).vtop4 vaddr' pagetable).toNat : Int) -
            ((machine readmem la57 enc).vtop4 vaddr pagetable).toNat =
          (vaddr'.toNat : Int) - vaddr.toNat := by
  have hwalk := vtop4?_eq readmem la57 enc vaddr pagetable
  unfold pageWalk at hwalk
  cases hleaf : findLeaf vaddr.toNat (levels readmem enc la57) pagetable.toNat with
  | none =>
    rw [hleaf] at hwalk
    refine ⟨⟨fun _ => rfl, fun _ => ?_⟩, fun frame s h => by cases h⟩
    rw [Machine.vtop4, Option.map_eq_none_iff.1 hwalk]
    rfl
  | some leaf =>
    obtain ⟨frame, s⟩ := leaf
    have hvalue := vtop4_of_findLeaf hleaf
    refine ⟨⟨fun h => ?_, fun h => by cases h⟩, fun frame' s' h => ?_⟩
    · have hlt := findLeaf_lt hleaf
      rw [← hvalue, h] at hlt
      exact absurd hlt (by decide)
    · cases h
      refine ⟨hvalue, fun vaddr' hsame => ?_⟩
      have hnum : vaddr'.toNat >>> s = vaddr.toNat >>> s := by
        rw [← BitVec.toNat_ushiftRight, hsame, BitVec.toNat_ushiftRight]
      have hleaf' := findLeaf_congr (levels_pairwise readmem enc la57) hleaf hnum
      rw [hvalue, vtop4_of_findLeaf hleaf']
      exact offset_sub frame hnum

end Arch.X8664
