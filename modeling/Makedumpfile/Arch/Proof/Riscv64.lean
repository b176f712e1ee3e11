import Makedumpfile.Arch.Riscv64

/-!
# When the page walk of riscv64 is right

The function finds the leaf of the architecture (`vtop_eq`), but the common exit adds the offset in a page
of 4 KiB whatever the level of the leaf. So it is right for a larger page exactly if the address is in the
first 4 KiB of it (`riscv64_walks_iff`).
-/

namespace Arch.Riscv64

open Lib

variable {m : Machine} {vaddr e : Word} {s t : Nat} {last : Bool}

/-! ## Entries -/

theorem toNat_and_mask (e : Word) : (e &&& ptePfnProtMask).toNat = e.toNat % 2 ^ 54 := by
  rw [show ptePfnProtMask = lowMask 54 by decide, toNat_and_lowMask _ (by decide)]

theorem toNat_ptPhys (e : Word) : (ptPhys (e &&& ptePfnProtMask)).toNat = frame e := by
  have hlt : e.toNat % 2 ^ 54 / 2 ^ 10 * 2 ^ 12 < 2 ^ 64 := by omega
  rw [ptPhys, BitVec.toNat_shiftLeft, BitVec.toNat_ushiftRight, toNat_and_mask,
    Nat.shiftRight_eq_div_pow, Nat.shiftLeft_eq]
  exact Nat.mod_eq_of_lt hlt

theorem frame_lt (e : Word) : frame e < 2 ^ 56 := by
  unfold frame
  omega

/-- The exit of the walk: the offset in a page of 4 KiB. -/
theorem toNat_out (vaddr e : Word) :
    (out vaddr (e &&& ptePfnProtMask)).toNat = frame e + vaddr.toNat % 2 ^ 12 := by
  have hframe := frame_lt e
  rw [out, BitVec.toNat_add, toNat_ptPhys, pageoffset,
    show (1#64 <<< pageShift - 1#64 : Word) = lowMask 12 by decide, toNat_and_lowMask _ (by decide),
    Nat.mod_eq_of_lt (by omega)]

theorem ptPhys_eq (e : Word) : ptPhys (e &&& ptePfnProtMask) = BitVec.ofNat 64 (frame e) := by
  rw [← toNat_ptPhys, ofNat_toNat]

theorem and_present (e : Word) :
    (e &&& ptePfnProtMask &&& pagePresent = 0#64) ↔ e.getLsbD 0 = false := by
  rw [BitVec.and_assoc, show ptePfnProtMask &&& pagePresent = 1#64 <<< 0 by decide]
  exact and_bit_eq_zero e (by decide)

theorem and_leaf (e : Word) : (e &&& ptePfnProtMask &&& pageLeaf = 0#64) ↔
    (e.getLsbD 1 || e.getLsbD 2 || e.getLsbD 3) = false := by
  have hmask : ptePfnProtMask &&& pageLeaf = 1#64 <<< 1 ||| 1#64 <<< 2 ||| 1#64 <<< 3 := by decide
  rw [BitVec.and_assoc, hmask, BitVec.and_or_distrib_left, BitVec.and_or_distrib_left,
    BitVec.or_eq_zero_iff, BitVec.or_eq_zero_iff, and_bit_eq_zero e (by decide),
    and_bit_eq_zero e (by decide), and_bit_eq_zero e (by decide), Bool.or_eq_false_iff,
    Bool.or_eq_false_iff]

/-- The entry of a level. -/
theorem entry_paddr (t : Nat) (vaddr : Word) (s : Nat) :
    BitVec.ofNat 64 t + index s vaddr * 8#64 =
      BitVec.ofNat 64 (t + vaddr.toNat >>> s % 512 * 8) := by
  rw [add_index_mul, index, show (512#64 - 1#64 : Word) = lowMask 9 by decide,
    toNat_shift_and_lowMask _ _ (by decide)]
  rfl

/-! ## Levels -/

/-- What the exit makes of the leaf: the address with the offset in a page of 4 KiB. -/
def exitOf (va : Nat) (ls : List (PageLevel Nat)) (t : Nat) : Option Nat :=
  (findLeaf va ls t).map fun leaf => leaf.1 + va % 2 ^ 12

/-- **A block of the function is a level of the search for the leaf.** -/
theorem block_eq {ls : List (PageLevel Nat)} {cont : Word → Option Word}
    (hcont : ∀ e, (cont (e &&& ptePfnProtMask)).map BitVec.toNat =
      if last || e.getLsbD 1 || e.getLsbD 2 || e.getLsbD 3 then
        some (frame e + vaddr.toNat % 2 ^ 12)
      else exitOf vaddr.toNat ls (frame e)) :
    ((m.present (BitVec.ofNat 64 t) s vaddr).bind cont).map BitVec.toNat =
      exitOf vaddr.toNat (level m.readmem s last :: ls) t := by
  unfold Machine.present exitOf
  rw [entry_paddr, findLeaf_cons]
  simp only [level]
  cases hread : m.readmem (BitVec.ofNat 64 (t + vaddr.toNat >>> s % 512 * 8)) with
  | none => rfl
  | some e =>
    simp only [Option.bind_eq_bind, Option.bind_some, decode, and_present]
    by_cases hpresent : e.getLsbD 0 = false
    · rw [if_pos hpresent, if_pos hpresent]
      rfl
    · rw [if_neg hpresent, if_neg hpresent, Option.bind_some, hcont e]
      by_cases hleaf : (last || e.getLsbD 1 || e.getLsbD 2 || e.getLsbD 3) = true
      · rw [if_pos hleaf, if_pos hleaf]
        rfl
      · rw [if_neg hleaf, if_neg hleaf]
        rfl

/-- The decision at a level above the last. -/
theorem upper_eq {ls : List (PageLevel Nat)} {below : Word → Option Word}
    (hbelow : ∀ t, (below (BitVec.ofNat 64 t)).map BitVec.toNat = exitOf vaddr.toNat ls t) (e : Word) :
    (if e &&& ptePfnProtMask &&& pageLeaf ≠ 0#64 then some (out vaddr (e &&& ptePfnProtMask))
      else below (ptPhys (e &&& ptePfnProtMask))).map BitVec.toNat =
      if false || e.getLsbD 1 || e.getLsbD 2 || e.getLsbD 3 then
        some (frame e + vaddr.toNat % 2 ^ 12)
      else exitOf vaddr.toNat ls (frame e) := by
  rw [Bool.false_or]
  by_cases hleaf : (e.getLsbD 1 || e.getLsbD 2 || e.getLsbD 3) = true
  · rw [if_pos hleaf, if_pos (by rw [ne_eq, and_leaf, hleaf]; decide), Option.map_some, toNat_out]
  · rw [if_neg hleaf, if_neg (by rw [not_not, and_leaf]; exact eq_false_of_ne_true hleaf), ptPhys_eq]
    exact hbelow _

/-! ## The walk -/

theorem vtopPte_eq (t : Nat) : (m.vtopPte vaddr (BitVec.ofNat 64 t)).map BitVec.toNat =
    exitOf vaddr.toNat [level m.readmem 12 true] t := by
  refine block_eq fun e => ?_
  rw [Option.map_some, toNat_out]
  rfl

theorem vtopPmd_eq (t : Nat) : (m.vtopPmd vaddr (BitVec.ofNat 64 t)).map BitVec.toNat =
    exitOf vaddr.toNat [level m.readmem 21 false, level m.readmem 12 true] t :=
  block_eq fun e => upper_eq vtopPte_eq e

theorem vtopPud_eq (t : Nat) : (m.vtopPud vaddr (BitVec.ofNat 64 t)).map BitVec.toNat =
    exitOf vaddr.toNat
      [level m.readmem 30 false, level m.readmem 21 false, level m.readmem 12 true] t :=
  block_eq fun e => upper_eq vtopPmd_eq e

theorem vtopP4d_eq (t : Nat) : (m.vtopP4d vaddr (BitVec.ofNat 64 t)).map BitVec.toNat =
    exitOf vaddr.toNat
      [level m.readmem 39 false, level m.readmem 30 false, level m.readmem 21 false,
        level m.readmem 12 true] t :=
  block_eq fun e => upper_eq vtopPud_eq e

/-- **The function finds the leaf of the architecture.** -/
theorem vtop_eq (m : Machine) (vaddr : Word) :
    m.vtop vaddr = paddr (exitOf vaddr.toNat m.levels m.pgd.toNat) := by
  refine getD_notPaddr ?_
  obtain ⟨t, ht, hroot⟩ : ∃ t, m.pgd.toNat = t ∧ m.pgd = BitVec.ofNat 64 t :=
    ⟨_, rfl, (ofNat_toNat _).symm⟩
  rw [ht, hroot]
  unfold Machine.levels pgdShift
  by_cases h57 : m.vaBits = vaBitsSv57
  · simp only [if_pos h57]
    exact block_eq fun e => upper_eq vtopP4d_eq e
  · simp only [if_neg h57]
    by_cases h48 : m.vaBits = vaBitsSv48
    · simp only [if_pos h48]
      exact block_eq fun e => upper_eq vtopPud_eq e
    · simp only [if_neg h48]
      exact block_eq fun e => upper_eq vtopPmd_eq e

/-! ## When it is right -/

theorem decode_leaf {frame : Nat} (h : decode last e = .leaf frame) : frame < 2 ^ 56 := by
  unfold decode at h
  split at h
  · cases h
  · split at h
    · cases h
      exact frame_lt e
    · cases h

/-- The leaves of all levels are inside the physical address space. -/
theorem findLeaf_lt {va frame : Nat} (h : findLeaf va m.levels t = some (frame, s)) :
    frame < 2 ^ 56 ∧ 12 ≤ s ∧ s ≤ 48 := by
  obtain ⟨l, hmem, rfl, e, he⟩ := findLeaf_mem h
  have hlevel : ∃ shift last, l = level m.readmem shift last ∧ 12 ≤ shift ∧ shift ≤ 48 := by
    unfold Machine.levels at hmem
    split at hmem
    · simp only [List.mem_cons, List.not_mem_nil, or_false] at hmem
      rcases hmem with rfl | rfl | rfl | rfl | rfl <;> exact ⟨_, _, rfl, by decide⟩
    · split at hmem
      · simp only [List.mem_cons, List.not_mem_nil, or_false] at hmem
        rcases hmem with rfl | rfl | rfl | rfl <;> exact ⟨_, _, rfl, by decide⟩
      · simp only [List.mem_cons, List.not_mem_nil, or_false] at hmem
        rcases hmem with rfl | rfl | rfl <;> exact ⟨_, _, rfl, by decide⟩
  obtain ⟨shift, last, rfl, hshift⟩ := hlevel
  exact ⟨decode_leaf he, hshift⟩

/-- **When the walk is right**: exactly if the page has no leaf, or the address is in the first 4 KiB of
it. -/
theorem riscv64_walks_iff (m : Machine) (vaddr : Word) :
    m.Walks vaddr ↔ ∀ frame s, findLeaf vaddr.toNat m.levels m.pgd.toNat = some (frame, s) →
      vaddr.toNat % 2 ^ s < 2 ^ 12 := by
  unfold Machine.Walks
  rw [vtop_eq]
  unfold exitOf pageWalk
  cases hleaf : findLeaf vaddr.toNat m.levels m.pgd.toNat with
  | none => exact ⟨fun _ => nofun, fun _ => rfl⟩
  | some leaf =>
    obtain ⟨frame, s⟩ := leaf
    obtain ⟨hframe, h12, hs⟩ := findLeaf_lt hleaf
    have hpow : 2 ^ s ≤ 2 ^ 48 := Nat.pow_le_pow_right (by decide) hs
    have hmod := Nat.mod_lt vaddr.toNat (Nat.two_pow_pos s)
    have hpage := Nat.mod_lt vaddr.toNat (Nat.two_pow_pos 12)
    have hlt : frame + vaddr.toNat % 2 ^ 12 < 2 ^ 64 - 1 ∧ frame + vaddr.toNat % 2 ^ s < 2 ^ 64 - 1 := by
      omega
    have hoffset : vaddr.toNat % 2 ^ 12 = vaddr.toNat % 2 ^ s % 2 ^ 12 :=
      (Nat.mod_mod_of_dvd _ (Nat.pow_dvd_pow 2 h12)).symm
    rw [Option.map_some, Option.map_some, paddr_inj (fun x hx => by cases hx; exact hlt.1)
      (fun x hx => by cases hx; exact hlt.2), Option.some.injEq, Nat.add_left_cancel_iff, hoffset]
    constructor
    · intro heq frame' s' hleaf'
      cases hleaf'
      exact heq ▸ Nat.mod_lt _ (by decide)
    · intro h
      exact Nat.mod_eq_of_lt (h frame s rfl)

/-- A gigabyte page at 2 GiB. -/
def gigabytePage : Machine where
  readmem _ := some 0x2000000f#64
  vaBits := 39
  pgd := 0#64

/-- The second 4 KiB of the page are not found. -/
theorem not_walks_gigabytePage : ¬ gigabytePage.Walks 0x1000#64 := by
  unfold Machine.Walks
  decide

end Arch.Riscv64
