import Makedumpfile.Arch.Arm64

/-!
# When the page walk of arm64 is right

The function never looks at bit 0 of an entry above the last level, so it takes an entry that is not
valid for a table (`Machine.followed`). And with 2 levels it takes a block for one of the level above.
So it is right exactly if it does not stray behind such an entry, and the address bits of such a block
are those of the virtual address (`arm64_walks_iff`).
-/

namespace Arch.Arm64

open Lib

variable {c : Config} {m : Machine} {vaddr e : Word} {n t : Nat}

/-! ## Configurations -/

/-- The eight configurations. -/
theorem mem_configs {ps va lvl : Nat} (hps : ps = 12 ∨ ps = 14 ∨ ps = 16)
    (h : calculatePlatConfig (2 ^ ps) va = some lvl) :
    (ps, va, lvl) ∈
      [(14, 36, 2), (16, 42, 2), (16, 48, 3), (16, 52, 3), (12, 39, 3), (14, 47, 3), (12, 48, 4),
        (14, 48, 4)] := by
  unfold calculatePlatConfig at h
  split at h
  · rename_i hcond
    cases h
    rcases hps with rfl | rfl | rfl <;> simp_all [sz16k, sz64k]
  · split at h
    · rename_i hcond
      cases h
      rcases hps with rfl | rfl | rfl <;> simp_all [sz4k, sz16k, sz64k]
    · split at h
      · rename_i hcond
        cases h
        rcases hps with rfl | rfl | rfl <;> simp_all [sz4k, sz16k, sz64k]
      · cases h

theorem Config.level_cases (c : Config) :
    c.pgtableLevel = 2 ∨ c.pgtableLevel = 3 ∨ c.pgtableLevel = 4 := by
  have hmem := mem_configs c.pagesize c.platConfig
  simp only [List.mem_cons, Prod.mk.injEq, List.not_mem_nil, or_false] at hmem
  omega

theorem Config.pageShift_le (c : Config) : 12 ≤ c.pageShift ∧ c.pageShift ≤ 16 := by
  have := c.pagesize
  omega

theorem Config.levelShift_le (c : Config) (n : Nat) : c.levelShift n ≤ 55 := by
  have hmul : (c.pageShift - 3) * (4 - n) ≤ 13 * 4 :=
    Nat.mul_le_mul (by have := c.pageShift_le; omega) (Nat.sub_le _ _)
  unfold Config.levelShift
  omega

theorem Config.indexBits_le (c : Config) (n : Nat) : c.indexBits n ≤ 52 := by
  have hmem := mem_configs c.pagesize c.platConfig
  simp only [List.mem_cons, Prod.mk.injEq, List.not_mem_nil, or_false] at hmem
  unfold Config.indexBits
  split <;> omega

/-- Below the root a table is a page. -/
theorem Config.indexBits_below (c : Config) (hn : 4 - c.pgtableLevel < n) :
    lowMask (c.indexBits n) = c.ptrsPerPte - 1#64 := by
  rw [Config.indexBits, if_neg (by omega)]
  rfl

theorem Config.indexBits_root (c : Config) :
    lowMask (c.indexBits (4 - c.pgtableLevel)) = c.ptrsPerPgd - 1#64 := by
  rw [Config.indexBits, if_pos rfl]
  rfl

/-! ## Entries -/

/-- `__pte_to_phys` is the address in an entry. -/
theorem toNat_pteToPhys (c : Config) (e : Word) : (c.pteToPhys e).toNat = c.outputAddress e := by
  have hlow : (e &&& c.pteAddrLow).toNat = e.toNat % 2 ^ 48 / 2 ^ c.pageShift * 2 ^ c.pageShift := by
    have hmask : c.pteAddrLow = lowMask 48 &&& ~~~(lowMask c.pageShift) := by
      unfold Config.pteAddrLow
      rcases c.pagesize with h | h | h <;> rw [h] <;> decide
    rw [hmask, ← BitVec.and_assoc, toNat_and_not_lowMask _ (by have := c.pageShift_le; omega),
      toNat_and_lowMask _ (by decide)]
  unfold Config.pteToPhys Config.outputAddress
  cases hlpa : c.lpa with
  | false => simp [hlow]
  | true =>
    have hhigh : ((e &&& pteAddrHigh) <<< 36).toNat = 2 ^ 48 * (e.toNat / 2 ^ 12 % 16) := by
      rw [show pteAddrHigh = lowMask 16 &&& ~~~(lowMask 12) by decide, ← BitVec.and_assoc,
        BitVec.toNat_shiftLeft, toNat_and_not_lowMask _ (by decide), toNat_and_lowMask _ (by decide),
        Nat.shiftLeft_eq]
      omega
    have hlt : e.toNat % 2 ^ 48 / 2 ^ c.pageShift * 2 ^ c.pageShift < 2 ^ 48 :=
      Nat.lt_of_le_of_lt (Nat.div_mul_le_self _ _) (Nat.mod_lt _ (by decide))
    rw [if_pos rfl, if_pos rfl, BitVec.toNat_or, hlow, hhigh, Nat.or_comm,
      ← Nat.two_pow_add_eq_or_of_lt hlt]
    omega

theorem pteToPhys_eq (c : Config) (e : Word) : c.pteToPhys e = BitVec.ofNat 64 (c.outputAddress e) := by
  rw [← toNat_pteToPhys, ofNat_toNat]

theorem outputAddress_lt (c : Config) (e : Word) : c.outputAddress e < 2 ^ 52 := by
  have hlow : e.toNat % 2 ^ 48 / 2 ^ c.pageShift * 2 ^ c.pageShift < 2 ^ 48 :=
    Nat.lt_of_le_of_lt (Nat.div_mul_le_self _ _) (Nat.mod_lt _ (by decide))
  unfold Config.outputAddress
  split <;> omega

/-- The type of an entry: bits 0 and 1. -/
theorem isSect_iff (e : Word) : (e &&& 3#64 = 1#64) ↔ e.getLsbD 0 = true ∧ e.getLsbD 1 = false := by
  have hand : (e &&& 3#64).toNat = e.toNat % 4 := by
    rw [show (3#64 : Word) = lowMask 2 by decide, toNat_and_lowMask _ (by decide)]
    rfl
  rw [← BitVec.toNat_inj, hand, BitVec.getLsbD, BitVec.getLsbD, Nat.testBit_eq_decide_div_mod_eq,
    Nat.testBit_eq_decide_div_mod_eq, decide_eq_true_iff, decide_eq_false_iff_not,
    show (1#64).toNat = 1 by rfl]
  omega

/-! ## The walk of the function -/

/-- The levels as the function takes them: above the last one, an entry that is not valid is taken for a
table. -/
def Machine.followed (m : Machine) (n : Nat) : PageLevel Nat :=
  { m.level n with
    decode := fun e =>
      if n ≠ 3 ∧ e.getLsbD 0 = false then .table (m.outputAddress e) else m.decode n e }

/-- An address of the table of level `n`. -/
theorem entry_paddr (t : Nat) (vaddr mask : Word) (hmask : mask = lowMask (m.indexBits n)) :
    m.readmem (BitVec.ofNat 64 t + ((vaddr >>> m.levelShift n) &&& mask) * 8#64) =
      (m.level n).entry t (vaddr.toNat >>> m.levelShift n) := by
  rw [add_index_mul, hmask, toNat_shift_and_lowMask _ _ (by have := m.indexBits_le n; omega)]
  rfl

/-- A block of 1 or 2 as the address in it. -/
theorem toNat_block (e vaddr : Word) {s : Nat} (hs : s ≤ 64) :
    ((c.pteToPhys e &&& ~~~(1#64 <<< s - 1#64)) + (vaddr &&& (1#64 <<< s - 1#64))).toNat =
      c.outputAddress e / 2 ^ s * 2 ^ s + vaddr.toNat % 2 ^ s := by
  rw [show (1#64 <<< s - 1#64 : Word) = lowMask s from rfl, toNat_high_add_low _ _ hs, toNat_pteToPhys]

theorem toNat_page (e vaddr : Word) :
    (c.pteToPhys e + (vaddr &&& (1#64 <<< c.pageShift - 1#64))).toNat =
      c.outputAddress e + vaddr.toNat % 2 ^ c.pageShift := by
  have hps := c.pageShift_le
  have hlt := outputAddress_lt c e
  have hmod := Nat.mod_lt vaddr.toNat (Nat.two_pow_pos c.pageShift)
  have hpow : 2 ^ c.pageShift ≤ 2 ^ 16 := Nat.pow_le_pow_right (by decide) hps.2
  rw [show (1#64 <<< c.pageShift - 1#64 : Word) = lowMask c.pageShift from rfl, BitVec.toNat_add,
    toNat_pteToPhys, toNat_and_lowMask _ (by omega), Nat.mod_eq_of_lt (by omega)]

theorem levelShift_three (c : Config) : c.levelShift 3 = c.pageShift := by
  have := c.pageShift_le
  unfold Config.levelShift
  omega

/-- At levels 1 and 2 an entry is a block or a table. -/
theorem followed_decode (m : Machine) (e : Word) (hn : n = 1 ∨ n = 2) :
    (m.followed n).decode e =
      if e &&& 3#64 = 1#64 then
        .leaf (m.outputAddress e / 2 ^ m.levelShift n * 2 ^ m.levelShift n)
      else .table (m.outputAddress e) := by
  have h3 : n ≠ 3 := by omega
  have h0 : n ≠ 0 := by omega
  simp only [Machine.followed, Config.decode, isSect_iff, h3, h0, ne_eq, not_false_eq_true, true_and,
    if_false]
  cases e.getLsbD 0 <;> cases e.getLsbD 1 <;> simp

/-- The root of 4 levels has tables only. -/
theorem followed_decode_zero (m : Machine) (e : Word) :
    (m.followed 0).decode e = .table (m.outputAddress e) := by
  cases hbit : e.getLsbD 0 <;> simp [Machine.followed, Config.decode, hbit]

/-- The last level has pages only. -/
theorem followed_decode_three (m : Machine) (e : Word) :
    (m.followed 3).decode e =
      if e &&& pagePresent = 0#64 then .absent else .leaf (m.outputAddress e) := by
  have hbit : (e &&& pagePresent = 0#64) ↔ e.getLsbD 0 = false := and_bit_eq_zero (i := 0) e (by decide)
  simp only [Machine.followed, Machine.level, Config.decode, hbit]
  cases e.getLsbD 0 <;> simp

/-- From the PMD on. -/
theorem vtopPmd_eq {pmda : Word}
    (h : m.readmem pmda = (m.level 2).entry t (vaddr.toNat >>> m.levelShift 2)) :
    (m.vtopPmd vaddr pmda).map BitVec.toNat =
      pageWalk vaddr.toNat ([2, 3].map m.followed) t := by
  unfold Machine.vtopPmd
  rw [List.map_cons, pageWalk_cons, h]
  change _ = ((m.level 2).entry t (vaddr.toNat >>> m.levelShift 2)).bind _
  cases (m.level 2).entry t (vaddr.toNat >>> m.levelShift 2) with
  | none => rfl
  | some e =>
    simp only [Option.bind_eq_bind, Option.bind_some, isPmdSect, decide_eq_true_eq]
    rw [followed_decode m e (.inr rfl)]
    by_cases hsect : e &&& 3#64 = 1#64
    · rw [if_pos hsect, if_pos hsect]
      exact congrArg some (toNat_block e vaddr (by have := m.levelShift_le 2; exact Nat.le_trans this (by decide)))
    · rw [if_neg hsect, if_neg hsect, List.map_cons, PageEntry.resolve, pageWalk_cons, pteToPhys_eq]
      have hpte := entry_paddr (m := m) (n := 3) (m.outputAddress e) vaddr _
        (m.indexBits_below (by have := m.level_cases; omega)).symm
      rw [levelShift_three] at hpte
      rw [Config.pteIndex, hpte]
      change _ = ((m.level 3).entry _ (vaddr.toNat >>> m.levelShift 3)).bind _
      rw [levelShift_three]
      cases (m.level 3).entry (m.outputAddress e) (vaddr.toNat >>> m.pageShift) with
      | none => rfl
      | some pte =>
        rw [Option.bind_some, Option.bind_some, followed_decode_three]
        by_cases hpresent : pte &&& pagePresent = 0#64
        · rw [if_pos hpresent, if_pos hpresent]
          rfl
        · rw [if_neg hpresent, if_neg hpresent]
          change _ = some (_ + vaddr.toNat % 2 ^ m.levelShift 3)
          rw [levelShift_three]
          exact congrArg some (toNat_page pte vaddr)

theorem level_two_entry (hlevel : 2 < m.pgtableLevel) (e vaddr : Word) :
    m.readmem (m.pteToPhys e + m.pmdIndex vaddr * 8#64) =
      (m.level 2).entry (m.outputAddress e) (vaddr.toNat >>> m.levelShift 2) := by
  rw [pteToPhys_eq]
  exact entry_paddr _ _ _ (m.indexBits_below (by omega)).symm

/-- From the PUD on, with 3 or 4 levels. -/
theorem vtopPud_eq (hlevel : 2 < m.pgtableLevel) {puda : Word}
    (h : m.readmem puda = (m.level 1).entry t (vaddr.toNat >>> m.levelShift 1)) :
    (m.vtopPud vaddr puda).map BitVec.toNat =
      pageWalk vaddr.toNat ([1, 2, 3].map m.followed) t := by
  unfold Machine.vtopPud
  rw [List.map_cons, pageWalk_cons, h]
  change _ = ((m.level 1).entry t (vaddr.toNat >>> m.levelShift 1)).bind _
  cases (m.level 1).entry t (vaddr.toNat >>> m.levelShift 1) with
  | none => rfl
  | some e =>
    simp only [Option.bind_eq_bind, Option.bind_some, isPudSect, decide_eq_true_eq]
    rw [followed_decode m e (.inl rfl)]
    by_cases hsect : e &&& 3#64 = 1#64
    · rw [if_pos hsect, if_pos hsect]
      exact congrArg some
        (toNat_block e vaddr (Nat.le_trans (m.levelShift_le 1) (by decide)))
    · rw [if_neg hsect, if_neg hsect, Config.pmdOffset, if_pos hlevel]
      exact vtopPmd_eq (level_two_entry hlevel e vaddr)

theorem pgd_entry (hn : 4 - m.pgtableLevel = n) (t : Nat) (vaddr : Word) :
    m.readmem (BitVec.ofNat 64 t + m.pgdIndex vaddr * 8#64) =
      (m.level n).entry t (vaddr.toNat >>> m.levelShift n) := by
  subst hn
  exact entry_paddr _ _ _ m.indexBits_root.symm

/-- With 4 levels the function is the walk by `followed`. -/
theorem vtopPgd_eq_four (hlevel : m.pgtableLevel = 4) (t : Nat) (vaddr : Word) :
    (m.vtopPgd vaddr (BitVec.ofNat 64 t)).map BitVec.toNat =
      pageWalk vaddr.toNat ([0, 1, 2, 3].map m.followed) t := by
  unfold Machine.vtopPgd
  dsimp only
  rw [List.map_cons, pageWalk_cons, pgd_entry (n := 0) (by omega)]
  change _ = ((m.level 0).entry t (vaddr.toNat >>> m.levelShift 0)).bind _
  cases (m.level 0).entry t (vaddr.toNat >>> m.levelShift 0) with
  | none => rfl
  | some e =>
    rw [Option.bind_eq_bind, Option.bind_some, Option.bind_some, followed_decode_zero,
      Config.pudOffset, if_pos (by omega), pteToPhys_eq]
    exact vtopPud_eq (by omega) (entry_paddr _ _ _ (m.indexBits_below (by omega)).symm)

/-- With 3 levels the PUD entry is the PGD entry, at level 1. -/
theorem vtopPgd_eq_three (hlevel : m.pgtableLevel = 3) (t : Nat) (vaddr : Word) :
    (m.vtopPgd vaddr (BitVec.ofNat 64 t)).map BitVec.toNat =
      pageWalk vaddr.toNat ([1, 2, 3].map m.followed) t := by
  have hpgd := pgd_entry (m := m) (n := 1) (by omega) t vaddr
  have hpud := vtopPud_eq (by omega) hpgd
  unfold Machine.vtopPgd
  dsimp only
  cases hread : m.readmem (BitVec.ofNat 64 t + m.pgdIndex vaddr * 8#64) with
  | none =>
    rw [Machine.vtopPud, hread] at hpud
    exact hpud
  | some e =>
    rw [Option.bind_eq_bind, Option.bind_some, Config.pudOffset, if_neg (by omega)]
    exact hpud

/-- **With 2 levels** the PUD and the PMD entry are the PGD entry, at level 2, but a block is one of
level 1. -/
theorem vtopPgd_eq_two (hlevel : m.pgtableLevel = 2) (t : Nat) (vaddr : Word) :
    (m.vtopPgd vaddr (BitVec.ofNat 64 t)).map BitVec.toNat =
      ((m.level 2).entry t (vaddr.toNat >>> m.levelShift 2)).bind fun e =>
        if e &&& 3#64 = 1#64 then
          some (m.outputAddress e / 2 ^ m.levelShift 1 * 2 ^ m.levelShift 1 +
            vaddr.toNat % 2 ^ m.levelShift 1)
        else pageWalk vaddr.toNat ([2, 3].map m.followed) t := by
  have hpgd := pgd_entry (m := m) (n := 2) (by omega) t vaddr
  unfold Machine.vtopPgd
  dsimp only
  rw [← hpgd]
  cases hread : m.readmem (BitVec.ofNat 64 t + m.pgdIndex vaddr * 8#64) with
  | none => rfl
  | some e =>
    rw [Option.bind_eq_bind, Option.bind_some, Option.bind_some, Config.pudOffset,
      if_neg (by omega), Machine.vtopPud, hread, Option.bind_eq_bind, Option.bind_some]
    simp only [isPudSect, decide_eq_true_eq]
    by_cases hsect : e &&& 3#64 = 1#64
    · rw [if_pos hsect, if_pos hsect]
      exact congrArg some
        (toNat_block e vaddr (Nat.le_trans (m.levelShift_le 1) (by decide)))
    · rw [if_neg hsect, if_neg hsect, Config.pmdOffset, if_neg (by omega)]
      exact vtopPmd_eq hpgd

/-! ## When it is right -/

/-- With 2 levels, the entry for the address is a block of level 2, and the address bits in it between
the sizes of the blocks of level 2 and level 1 are others than those of the virtual address. -/
def Machine.WrongBlock (m : Machine) (vaddr : Word) (t : Nat) : Prop :=
  m.pgtableLevel = 2 ∧ ∃ e, (m.level 2).entry t (vaddr.toNat >>> m.levelShift 2) = some e ∧
    e.getLsbD 0 = true ∧ e.getLsbD 1 = false ∧
    m.outputAddress e / 2 ^ m.levelShift 2 % 2 ^ (m.levelShift 1 - m.levelShift 2) ≠
      vaddr.toNat / 2 ^ m.levelShift 2 % 2 ^ (m.levelShift 1 - m.levelShift 2)

/-- The address in a larger block is that in the smaller one if the bits between them are the same. -/
theorem block_eq_iff (x v : Nat) {s k : Nat} :
    x / 2 ^ (s + k) * 2 ^ (s + k) + v % 2 ^ (s + k) = x / 2 ^ s * 2 ^ s + v % 2 ^ s ↔
      x / 2 ^ s % 2 ^ k = v / 2 ^ s % 2 ^ k := by
  have hx : x / 2 ^ s * 2 ^ s = x / 2 ^ (s + k) * 2 ^ (s + k) + x / 2 ^ s % 2 ^ k * 2 ^ s := by
    have hdiv := Nat.div_add_mod (x / 2 ^ s) (2 ^ k)
    rw [Nat.div_div_eq_div_mul, ← Nat.pow_add] at hdiv
    calc x / 2 ^ s * 2 ^ s
        = (2 ^ k * (x / 2 ^ (s + k)) + x / 2 ^ s % 2 ^ k) * 2 ^ s := by rw [hdiv]
      _ = _ := by
        rw [Nat.add_mul, Nat.mul_comm (2 ^ k), Nat.mul_assoc, Nat.mul_comm (2 ^ k), ← Nat.pow_add]
  have hv : v % 2 ^ (s + k) = v / 2 ^ s % 2 ^ k * 2 ^ s + v % 2 ^ s := by
    rw [Nat.pow_add, Nat.mod_mul, Nat.add_comm, Nat.mul_comm]
  rw [hx, hv]
  constructor
  · intro h
    exact (Nat.eq_of_mul_eq_mul_right (Nat.two_pow_pos s) (by omega : _ * 2 ^ s = _ * 2 ^ s)).symm
  · intro h
    rw [h]
    omega

theorem page_lt {frame v s : Nat} (hframe : frame < 2 ^ 52) (hs : s ≤ 55) :
    frame + v % 2 ^ s < 2 ^ 64 - 1 := by
  have hmod := Nat.mod_lt v (Nat.two_pow_pos s)
  have hpow : 2 ^ s ≤ 2 ^ 55 := Nat.pow_le_pow_right (by decide) hs
  omega

/-- What the walk can find is an address. -/
theorem pageWalk_lt {f : Nat → PageLevel Nat} (hshift : ∀ n, (f n).shift = m.levelShift n)
    (hdecode : ∀ n e frame, (f n).decode e = .leaf frame → frame < 2 ^ 52) (ns : List Nat) (va t : Nat) :
    ∀ x ∈ pageWalk va (ns.map f) t, x < 2 ^ 64 - 1 := by
  intro x hx
  obtain ⟨⟨frame, s⟩, hleaf, rfl⟩ := Option.map_eq_some_iff.1 hx
  obtain ⟨l, hmem, rfl, e, he⟩ := findLeaf_mem hleaf
  obtain ⟨n, -, rfl⟩ := List.mem_map.1 hmem
  refine page_lt (hdecode n e frame he) ?_
  rw [hshift]
  exact m.levelShift_le n

theorem decode_lt {frame : Nat} (h : c.decode n e = .leaf frame) : frame < 2 ^ 52 := by
  have hlt := outputAddress_lt c e
  unfold Config.decode at h
  split at h
  · cases h
  · split at h
    · cases h
      exact hlt
    · split at h
      · cases h
        exact Nat.lt_of_le_of_lt (Nat.div_mul_le_self _ _) hlt
      · cases h

theorem followed_decode_lt {frame : Nat} (h : (m.followed n).decode e = .leaf frame) :
    frame < 2 ^ 52 := by
  simp only [Machine.followed] at h
  split at h
  · cases h
  · exact decode_lt h

/-- `followed` takes what the architecture takes. -/
theorem followed_lookup (va n t : Nat) (h : (m.level n).lookup t va ≠ .absent) :
    (m.followed n).lookup t va = (m.level n).lookup t va := by
  have hsame : (m.followed n).entry t (va >>> (m.followed n).shift) =
      (m.level n).entry t (va >>> (m.level n).shift) := rfl
  cases hentry : (m.level n).entry t (va >>> (m.level n).shift) with
  | none => rw [PageLevel.lookup_none hentry, PageLevel.lookup_none (hsame.trans hentry)]
  | some e =>
    rw [PageLevel.lookup_some hentry] at h
    rw [PageLevel.lookup_some hentry, PageLevel.lookup_some (hsame.trans hentry)]
    refine if_neg fun hinvalid => h ?_
    rw [show (m.level n).decode e = m.decode n e from rfl, Config.decode, if_pos hinvalid.2]

/-- With 3 and 4 levels only entries that are not valid are a problem. -/
theorem vtopPgd_eq (hlevel : m.pgtableLevel ≠ 2) (t : Nat) (vaddr : Word) :
    (m.vtopPgd vaddr (BitVec.ofNat 64 t)).map BitVec.toNat =
      pageWalk vaddr.toNat (m.levelNumbers.map m.followed) t := by
  unfold Config.levelNumbers
  rcases m.level_cases with h | h | h
  · exact absurd h hlevel
  · rw [h]
    exact vtopPgd_eq_three h t vaddr
  · rw [h]
    exact vtopPgd_eq_four h t vaddr

/-- With 2 levels, the larger block is the right address exactly if it is not a wrong block. -/
theorem block_translate_iff (hlevel : m.pgtableLevel = 2)
    (hentry : (m.level 2).entry t (vaddr.toNat >>> m.levelShift 2) = some e)
    (hsect : e &&& 3#64 = 1#64) :
    some (m.outputAddress e / 2 ^ m.levelShift 1 * 2 ^ m.levelShift 1 +
        vaddr.toNat % 2 ^ m.levelShift 1) = pageWalk vaddr.toNat (m.levelNumbers.map m.level) t ↔
      (∀ pa, ¬ Strays vaddr.toNat m.level m.followed m.levelNumbers t pa) ∧ ¬ m.WrongBlock vaddr t := by
  obtain ⟨h0, h1⟩ := (isSect_iff e).1 hsect
  have hnumbers : m.levelNumbers = [2, 3] := by
    rw [Config.levelNumbers, hlevel]
    rfl
  have hlookup : (m.level 2).lookup t vaddr.toNat =
      .leaf (m.outputAddress e / 2 ^ m.levelShift 2 * 2 ^ m.levelShift 2) := by
    rw [PageLevel.lookup_some (l := m.level 2) hentry]
    rw [show (m.level 2).decode e = m.decode 2 e from rfl, Config.decode, h0, h1,
      if_neg Bool.false_ne_true.symm, if_neg (by decide), if_pos ⟨by decide, rfl⟩]
  have hshift : m.levelShift 1 = m.levelShift 2 + (m.levelShift 1 - m.levelShift 2) := by
    have := m.pageShift_le
    unfold Config.levelShift
    omega
  have hstrays : ∀ pa, ¬ Strays vaddr.toNat m.level m.followed [2, 3] t pa := by
    intro pa
    rw [Strays, hlookup, followed_lookup vaddr.toNat 2 t (by simp [hlookup]), hlookup]
    exact not_false
  rw [hnumbers, List.map_cons, pageWalk, findLeaf_leaf hlookup, Option.map_some, Option.some_inj]
  dsimp only
  rw [show (m.level 2).shift = m.levelShift 2 from rfl, hshift, block_eq_iff]
  refine ⟨fun heq => ⟨hstrays, ?_⟩, fun h => ?_⟩
  · rintro ⟨-, e', hentry', -, -, hne⟩
    rw [hentry] at hentry'
    cases hentry'
    exact hne heq
  · by_contra hne
    exact h.2 ⟨hlevel, e, hentry, h0, h1, hne⟩

/-- The function does not return `NOT_PADDR` for an address. -/
theorem vtopPgd_lt (m : Machine) (vaddr swapperPhys : Word) :
    ∀ x ∈ (m.vtopPgd vaddr swapperPhys).map BitVec.toNat, x < 2 ^ 64 - 1 := by
  rw [← ofNat_toNat swapperPhys]
  by_cases hlevel : m.pgtableLevel = 2
  · rw [vtopPgd_eq_two hlevel]
    intro x hx
    obtain ⟨e, -, hx⟩ := Option.bind_eq_some_iff.1 hx
    split at hx
    · cases hx
      exact page_lt (Nat.lt_of_le_of_lt (Nat.div_mul_le_self _ _) (outputAddress_lt _ e))
        (m.levelShift_le 1)
    · exact pageWalk_lt (fun _ => rfl) (fun n e frame => followed_decode_lt) [2, 3] _ _ x hx
  · rw [vtopPgd_eq hlevel]
    exact pageWalk_lt (fun _ => rfl) (fun n e frame => followed_decode_lt) _ _ _

/-- What the function finds from the page table on, right or not. -/
theorem vtopPgd_right_iff (m : Machine) (vaddr : Word) (t : Nat) :
    (m.vtopPgd vaddr (BitVec.ofNat 64 t)).map BitVec.toNat =
        pageWalk vaddr.toNat (m.levelNumbers.map m.level) t ↔
      (∀ pa, ¬ Strays vaddr.toNat m.level m.followed m.levelNumbers t pa) ∧ ¬ m.WrongBlock vaddr t := by
  have hiff := pageWalk_eq_iff (f := m.level) (g := m.followed) (fun _ => rfl)
    (fun n t h _ => followed_lookup vaddr.toNat n t h) m.levelNumbers t
  by_cases hlevel : m.pgtableLevel = 2
  · rw [vtopPgd_eq_two hlevel]
    have hnumbers : m.levelNumbers = [2, 3] := by
      rw [Config.levelNumbers, hlevel]
      rfl
    cases hentry : (m.level 2).entry t (vaddr.toNat >>> m.levelShift 2) with
    | none =>
      have hnone : pageWalk vaddr.toNat ([2, 3].map m.followed) t = none := by
        rw [List.map_cons, pageWalk_cons]
        change ((m.level 2).entry t (vaddr.toNat >>> m.levelShift 2)).bind _ = _
        rw [hentry]
        rfl
      rw [Option.bind_none, ← hnone, ← hnumbers, hiff]
      have hblock : ¬ m.WrongBlock vaddr t := by
        rintro ⟨-, e', hentry', -⟩
        rw [hentry] at hentry'
        cases hentry'
      exact ⟨fun h => ⟨h, hblock⟩, fun h => h.1⟩
    | some e =>
      rw [Option.bind_some]
      by_cases hsect : e &&& 3#64 = 1#64
      · rw [if_pos hsect]
        exact block_translate_iff hlevel hentry hsect
      · rw [if_neg hsect, ← hnumbers, hiff]
        have hblock : ¬ m.WrongBlock vaddr t := by
          rintro ⟨-, e', hentry', h0, h1, -⟩
          rw [hentry] at hentry'
          cases hentry'
          exact hsect ((isSect_iff e).2 ⟨h0, h1⟩)
        exact ⟨fun h => ⟨h, hblock⟩, fun h => h.1⟩
  · rw [vtopPgd_eq hlevel, hiff]
    exact ⟨fun h => ⟨h, fun hblock => hlevel hblock.1⟩, fun h => h.1⟩

/-- **When the walk is right**: exactly if there is no page behind an entry that is not valid, and, with
2 levels, the address bits of a block above its size are those of the virtual address. -/
theorem arm64_walks_iff (m : Machine) (vaddr : Word) :
    m.Walks vaddr ↔ ∀ swapperPgDir, m.swapperPgDir = some swapperPgDir →
      (∀ pa, ¬ Strays vaddr.toNat m.level m.followed m.levelNumbers (m.pa swapperPgDir).toNat pa) ∧
        ¬ m.WrongBlock vaddr (m.pa swapperPgDir).toNat := by
  unfold Machine.Walks Machine.vaddrToPaddr Machine.translation
  cases hroot : m.swapperPgDir with
  | none =>
    refine ⟨fun _ x hx => ?_, fun _ => rfl⟩
    cases hx
  | some swapperPgDir =>
    have hright := vtopPgd_right_iff m vaddr (m.pa swapperPgDir).toNat
    rw [ofNat_toNat] at hright
    have hforall : ∀ P : Word → Prop,
        (∀ x, some swapperPgDir = some x → P x) ↔ P swapperPgDir := by
      intro P
      exact ⟨fun h => h _ rfl, fun h x hx => Option.some.inj hx ▸ h⟩
    rw [hforall, ← hright, Option.bind_eq_bind, Option.bind_some, Option.bind_some,
      getD_notPaddr rfl]
    exact paddr_inj (vtopPgd_lt m vaddr _)
      (pageWalk_lt (fun _ => rfl) (fun n e frame => decode_lt) _ _ _)

/-- Pages of 4 KiB and 3 levels. The entry of the root is not valid, with the address of a table of
blocks in it. -/
def invalidRoot : Machine where
  pageShift := 12
  vaBits := 39
  pgtableLevel := 3
  lpa := false
  pagesize := .inl rfl
  platConfig := by decide
  lpaPagesize := nofun
  readmem addr := if addr = 0#64 then some 0x1000#64 else some 1#64
  swapperPgDir := some 0#64
  kimageVoffset := none
  flippedVa := false
  vabitsActual := 39
  pageOffset := 0#64
  physBase := 0#64

/-- The function returns the address in the block. -/
theorem not_walks_invalidRoot : ¬ invalidRoot.Walks 0#64 := by
  unfold Machine.Walks
  decide

end Arch.Arm64
