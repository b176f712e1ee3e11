import Makedumpfile.Arch.Sparc64

/-!
# When the page walks of sparc64 are right

The functions follow the levels of the architecture down to the page table (`vtopPmd_eq`), but there they
take the entry at the table's address plus the index, without the size of an entry. So they are right
exactly if that place stands for the same page (`sparc64_walks_iff`).
-/

namespace Arch.Sparc64

open Lib

variable {m : Machine} {vaddr e : Word} {s t : Nat} {read : Word → Option Word}
  {decode : Word → PageEntry Nat}

/-! ## Entries -/

theorem toNat_pteToPa (e : Word) : (pteToPa e).toNat = address e := by
  rw [pteToPa, show pagePaddr4v = lowMask 56 &&& ~~~(lowMask 13) by decide, ← BitVec.and_assoc,
    toNat_and_not_lowMask _ (by decide), toNat_and_lowMask _ (by decide)]
  rfl

theorem pteToPa_eq (e : Word) : pteToPa e = BitVec.ofNat 64 (address e) := by
  rw [← toNat_pteToPa, ofNat_toNat]

theorem address_lt (e : Word) : address e < 2 ^ 56 :=
  Nat.lt_of_le_of_lt (Nat.div_mul_le_self _ _) (Nat.mod_lt _ (by decide))

/-- A page with the address in it. -/
theorem toNat_page (e vaddr : Word) (hs : s ≤ 33) {mask : Word} (hmask : mask = ~~~(lowMask s)) :
    (pteToPa e + (vaddr &&& ~~~mask)).toNat = address e + vaddr.toNat % 2 ^ s := by
  have hlt := address_lt e
  have hmod := Nat.mod_lt vaddr.toNat (Nat.two_pow_pos s)
  have hpow : 2 ^ s ≤ 2 ^ 33 := Nat.pow_le_pow_right (by decide) hs
  rw [hmask, BitVec.not_not, BitVec.toNat_add, toNat_pteToPa, toNat_and_lowMask _ (by omega),
    Nat.mod_eq_of_lt (by omega)]

theorem and_huge (e : Word) : (e &&& pagePmdHuge = 0#64) ↔ e.getLsbD 56 = false :=
  and_bit_eq_zero (i := 56) e (by decide)

theorem and_present (e : Word) : (e &&& pagePresent4v = 0#64) ↔ e.getLsbD 4 = false :=
  and_bit_eq_zero (i := 4) e (by decide)

theorem index_toNat (vaddr : Word) (s : Nat) : (index s vaddr).toNat = vaddr.toNat >>> s % 1024 := by
  rw [index, show (1#64 <<< 10 - 1#64 : Word) = lowMask 10 by decide,
    toNat_shift_and_lowMask _ _ (by decide)]
  rfl

theorem offset_eq (t : Nat) (vaddr : Word) (s : Nat) :
    offset s (BitVec.ofNat 64 t) vaddr = BitVec.ofNat 64 (t + vaddr.toNat >>> s % 1024 * 8) := by
  rw [offset, add_index_mul, index_toNat]

/-- The sum of integers leaves the size of the entries out. -/
theorem pteOffset_eq (e vaddr : Word) :
    pteOffset e vaddr = BitVec.ofNat 64 (address e + vaddr.toNat >>> 13 % 1024) := by
  rw [pteOffset, pteToPa_eq, BitVec.ofNat_add, ← index_toNat, ofNat_toNat]
  rfl

/-! ## Levels -/

/-- **A block of the functions is a level.** -/
theorem block_eq {ls : List (PageLevel Nat)} {cont : Word → Option Word}
    (hcont : ∀ e, (cont e).map BitVec.toNat = (decode e).resolve vaddr.toNat s ls) :
    ((read (offset s (BitVec.ofNat 64 t) vaddr)).bind cont).map BitVec.toNat =
      pageWalk vaddr.toNat (level read s decode :: ls) t := by
  rw [offset_eq, pageWalk_cons]
  simp only [level]
  cases read (BitVec.ofNat 64 (t + vaddr.toNat >>> s % 1024 * 8)) with
  | none => rfl
  | some e => exact hcont e

/-- The page table as the functions look at it. -/
def followedPte (m : Machine) : PageLevel Nat where
  shift := 13
  entry table i := m.readPaddr (BitVec.ofNat 64 (table + i % 1024))
  decode := decodePte

def Machine.followed (m : Machine) (fourLevels : Bool) : List (PageLevel Nat) :=
  m.upperLevels fourLevels ++ [followedPte m]

/-- The page table entry. -/
theorem pte_eq (m : Machine) (pmd vaddr : Word) :
    ((m.readPaddr (pteOffset pmd vaddr)).bind fun pte =>
      if pte &&& pagePresent4v = 0#64 then none
      else some (pteToPa pte + (vaddr &&& ~~~pageMask))).map BitVec.toNat =
      pageWalk vaddr.toNat [followedPte m] (address pmd) := by
  rw [pteOffset_eq, pageWalk_cons]
  simp only [followedPte]
  cases m.readPaddr (BitVec.ofNat 64 (address pmd + vaddr.toNat >>> 13 % 1024)) with
  | none => rfl
  | some e =>
    simp only [Option.bind_some, and_present, decodePte]
    by_cases hpresent : e.getLsbD 4 = false
    · rw [if_pos hpresent, if_pos hpresent]
      rfl
    · rw [if_neg hpresent, if_neg hpresent, Option.map_some, toNat_page e vaddr (by decide) (s := 13)
        (by decide)]
      rfl

/-- The walks from the PMD on. -/
theorem vtopPmd_eq (t : Nat) :
    (m.vtopPmd vaddr (offset pmdShift (BitVec.ofNat 64 t) vaddr)).map BitVec.toNat =
      pageWalk vaddr.toNat [level m.readPaddr 23 decodePmd, followedPte m] t := by
  refine block_eq (s := 23) fun pmd => ?_
  unfold decodePmd
  by_cases hzero : pmd = 0#64
  · rw [if_pos hzero, if_pos hzero]
    rfl
  · rw [if_neg hzero, if_neg hzero]
    by_cases hhuge : pmd &&& pagePmdHuge = 0#64
    · rw [if_neg (not_not.2 hhuge), (and_huge pmd).1 hhuge]
      exact pte_eq m pmd vaddr
    · rw [if_pos hhuge, eq_true_of_ne_false (mt (and_huge pmd).2 hhuge)]
      exact congrArg some (toNat_page pmd vaddr (by decide) (by decide))

/-- An entry of a table of tables. -/
theorem decodePgd_resolve {ls : List (PageLevel Nat)} {below : Word → Option Word}
    (hbelow : ∀ t, (below (BitVec.ofNat 64 t)).map BitVec.toNat = pageWalk vaddr.toNat ls t)
    (e : Word) :
    (if e = 0#64 then none else below e).map BitVec.toNat =
      (decodePgd e).resolve vaddr.toNat s ls := by
  unfold decodePgd
  by_cases hzero : e = 0#64
  · rw [if_pos hzero, if_pos hzero]
    rfl
  · rw [if_neg hzero, if_neg hzero]
    have h := hbelow e.toNat
    rw [ofNat_toNat] at h
    exact h

theorem vtop3_eq (m : Machine) (vaddr : Word) : m.vtop3 vaddr =
    paddr (m.swapperPgDir.bind fun pgdir => pageWalk vaddr.toNat (m.followed false) pgdir.toNat) := by
  refine getD_notPaddr ?_
  cases m.swapperPgDir with
  | none => rfl
  | some pgdir =>
    obtain ⟨t, ht, hroot⟩ : ∃ t, pgdir.toNat = t ∧ pgdir = BitVec.ofNat 64 t :=
      ⟨_, rfl, (ofNat_toNat _).symm⟩
    rw [Option.bind_eq_bind, Option.bind_some, Option.bind_some, ht, hroot]
    exact block_eq (s := 33) (decodePgd_resolve vtopPmd_eq)

theorem vtopPud_eq (t : Nat) :
    (m.vtopPud vaddr (offset pudShift (BitVec.ofNat 64 t) vaddr)).map BitVec.toNat =
      pageWalk vaddr.toNat
        [level m.readPaddr 33 decodePud, level m.readPaddr 23 decodePmd, followedPte m] t := by
  refine block_eq (s := 33) fun pud => ?_
  unfold decodePud
  by_cases hzero : pud = 0#64
  · rw [if_pos hzero, if_pos hzero]
    rfl
  · rw [if_neg hzero, if_neg hzero]
    by_cases hhuge : pud &&& pagePudHuge = 0#64
    · rw [if_neg (not_not.2 hhuge), (and_huge pud).1 hhuge]
      have h := @vtopPmd_eq m vaddr pud.toNat
      rw [ofNat_toNat] at h
      exact h
    · rw [if_pos hhuge, eq_true_of_ne_false (mt (and_huge pud).2 hhuge)]
      exact congrArg some (toNat_page pud vaddr (by decide) (by decide))

theorem vtop4_eq (m : Machine) (vaddr : Word) : m.vtop4 vaddr =
    paddr (m.swapperPgDir.bind fun pgdir => pageWalk vaddr.toNat (m.followed true) pgdir.toNat) := by
  refine getD_notPaddr ?_
  cases m.swapperPgDir with
  | none => rfl
  | some pgdir =>
    obtain ⟨t, ht, hroot⟩ : ∃ t, pgdir.toNat = t ∧ pgdir = BitVec.ofNat 64 t :=
      ⟨_, rfl, (ofNat_toNat _).symm⟩
    rw [Option.bind_eq_bind, Option.bind_some, Option.bind_some, ht, hroot]
    exact block_eq (s := 43) (decodePgd_resolve vtopPud_eq)

/-! ## When they are right -/

theorem decodePte_ne_table (e : Word) (t : Nat) : decodePte e ≠ .table t := by
  unfold decodePte
  split <;> nofun

/-- The page table of the architecture has the page in the entry of the index. -/
theorem lookup_pte (va t : Nat) : (level m.readPaddr 13 decodePte).lookup t va =
    m.pageAt (t + va >>> 13 % 1024 * 8) := rfl

/-- The page table as it is looked at has the page at the index. -/
theorem lookup_followedPte (va t : Nat) :
    (followedPte m).lookup t va = m.pageAt (t + va >>> 13 % 1024) := rfl

theorem pageAt_ne_table (a t : Nat) : m.pageAt a ≠ .table t := by
  unfold Machine.pageAt
  split
  · nofun
  · exact decodePte_ne_table _ t

/-- Two page tables give the same page exactly if the entries do. -/
theorem pageWalk_page_inj (l l' : PageLevel Nat) (va : Nat) (hshift : l'.shift = l.shift)
    (h : ∀ t', l.lookup t va ≠ .table t') (h' : ∀ t', l'.lookup t va ≠ .table t') :
    pageWalk va [l'] t = pageWalk va [l] t ↔ l'.lookup t va = l.lookup t va := by
  cases he : l.lookup t va with
  | absent =>
    rw [pageWalk_absent _ he]
    cases he' : l'.lookup t va with
    | absent => rw [pageWalk_absent _ he', eq_self, eq_self]
    | table t' => exact absurd he' (h' t')
    | leaf frame' =>
      rw [pageWalk_leaf he']
      exact ⟨nofun, nofun⟩
  | table t' => exact absurd he (h t')
  | leaf frame =>
    rw [pageWalk_leaf he]
    cases he' : l'.lookup t va with
    | absent =>
      rw [pageWalk_absent _ he']
      exact ⟨nofun, nofun⟩
    | table t' => exact absurd he' (h' t')
    | leaf frame' =>
      rw [pageWalk_leaf he', hshift, Option.some.injEq, Nat.add_right_cancel_iff,
        PageEntry.leaf.injEq]

theorem decode_lt (hd : decode = decodePgd ∨ decode = decodePud ∨ decode = decodePmd ∨
    decode = decodePte) {frame : Nat} (h : decode e = .leaf frame) : frame < 2 ^ 56 := by
  have hlt := address_lt e
  rcases hd with rfl | rfl | rfl | rfl
  · unfold decodePgd at h
    split at h <;> cases h
  · unfold decodePud at h
    split at h
    · cases h
    · split at h <;> cases h
      exact hlt
  · unfold decodePmd at h
    split at h
    · cases h
    · split at h <;> cases h
      exact hlt
  · unfold decodePte at h
    split at h <;> cases h
    exact hlt

/-- No address is `NOT_PADDR`. -/
theorem pageWalk_lt {ls : List (PageLevel Nat)} {va x : Nat}
    (hls : ∀ l ∈ ls, l.shift ≤ 43 ∧ ∀ e frame, l.decode e = .leaf frame → frame < 2 ^ 56)
    (h : pageWalk va ls t = some x) : x < 2 ^ 64 - 1 := by
  obtain ⟨⟨frame, s⟩, hleaf, rfl⟩ := Option.map_eq_some_iff.1 h
  obtain ⟨l, hmem, rfl, e, he⟩ := findLeaf_mem hleaf
  obtain ⟨hshift, hframe⟩ := hls l hmem
  have hlt := hframe e frame he
  have hmod := Nat.mod_lt va (Nat.two_pow_pos l.shift)
  have hpow : 2 ^ l.shift ≤ 2 ^ 43 := Nat.pow_le_pow_right (by decide) hshift
  dsimp only
  omega

theorem upperLevels_bound (m : Machine) (fourLevels : Bool) :
    ∀ l ∈ m.upperLevels fourLevels,
      l.shift ≤ 43 ∧ ∀ e frame, l.decode e = .leaf frame → frame < 2 ^ 56 := by
  cases fourLevels
  · simp only [Machine.upperLevels, Bool.false_eq_true, if_false, List.mem_cons, List.not_mem_nil,
      or_false]
    rintro l (rfl | rfl)
    · exact ⟨by simp [level], fun e frame h => decode_lt (.inl rfl) h⟩
    · exact ⟨by simp [level], fun e frame h => decode_lt (.inr (.inr (.inl rfl))) h⟩
  · simp only [Machine.upperLevels, if_true, List.mem_cons, List.not_mem_nil, or_false]
    rintro l (rfl | rfl | rfl)
    · exact ⟨by simp [level], fun e frame h => decode_lt (.inl rfl) h⟩
    · exact ⟨by simp [level], fun e frame h => decode_lt (.inr (.inl rfl)) h⟩
    · exact ⟨by simp [level], fun e frame h => decode_lt (.inr (.inr (.inl rfl))) h⟩

/-- One of the walks. -/
theorem walk_iff (m : Machine) (vaddr : Word) (fourLevels : Bool) :
    paddr (m.swapperPgDir.bind fun pgdir =>
        pageWalk vaddr.toNat (m.followed fourLevels) pgdir.toNat) =
      paddr (m.translation fourLevels vaddr) ↔
      ∀ pgdir t, m.swapperPgDir = some pgdir →
        descend vaddr.toNat (m.upperLevels fourLevels) pgdir.toNat = some t →
        m.pageAt (t + vaddr.toNat >>> 13 % 1024) = m.pageAt (t + vaddr.toNat >>> 13 % 1024 * 8) := by
  unfold Machine.translation
  cases m.swapperPgDir with
  | none => exact ⟨fun _ => nofun, fun _ => rfl⟩
  | some pgdir =>
    have hlt : ∀ (l : PageLevel Nat), l.shift = 13 → l.decode = decodePte →
        ∀ x, pageWalk vaddr.toNat (m.upperLevels fourLevels ++ [l]) pgdir.toNat = some x →
          x < 2 ^ 64 - 1 := by
      intro l hshift hdecode x hx
      refine pageWalk_lt (fun l' hl' => ?_) hx
      rcases List.mem_append.1 hl' with hup | hlast
      · exact upperLevels_bound m fourLevels l' hup
      · obtain rfl := List.mem_singleton.1 hlast
        refine ⟨by omega, fun e frame h => ?_⟩
        rw [hdecode] at h
        exact decode_lt (.inr (.inr (.inr rfl))) h
    rw [Option.bind_some, Option.bind_some, Machine.followed, Machine.levels,
      paddr_inj (hlt (followedPte m) rfl rfl) (hlt (level m.readPaddr 13 decodePte) rfl rfl)]
    cases hdescend : descend vaddr.toNat (m.upperLevels fourLevels) pgdir.toNat with
    | none =>
      refine ⟨fun _ pgdir' t hp ht => ?_, fun _ => pageWalk_append_congr hdescend⟩
      cases hp
      rw [hdescend] at ht
      cases ht
    | some t =>
      have hinj := pageWalk_page_inj (level m.readPaddr 13 decodePte) (followedPte m)
        (t := t) vaddr.toNat rfl (fun t' => pageAt_ne_table _ t')
        fun t' => pageAt_ne_table _ t'
      rw [pageWalk_append_of_descend hdescend, pageWalk_append_of_descend hdescend, hinj,
        lookup_pte, lookup_followedPte]
      refine ⟨fun heq pgdir' t' hp ht => ?_, fun h => h pgdir t rfl hdescend⟩
      cases hp
      rw [hdescend] at ht
      cases ht
      exact heq

/-- **When the walks are right**: exactly if the place in the page table that is looked at, at the index
of the address without the size of an entry, stands for the same page as the entry of the index. -/
theorem sparc64_walks_iff (m : Machine) (vaddr : Word) :
    m.Walks vaddr ↔ ∀ fourLevels pgdir t, m.swapperPgDir = some pgdir →
      descend vaddr.toNat (m.upperLevels fourLevels) pgdir.toNat = some t →
      m.pageAt (t + vaddr.toNat >>> 13 % 1024) = m.pageAt (t + vaddr.toNat >>> 13 % 1024 * 8) := by
  unfold Machine.Walks
  rw [vtop3_eq, vtop4_eq, walk_iff, walk_iff, Bool.forall_bool]

/-- Tables at the pages 1 to 3; the page table has an entry with the index 1 only. -/
def secondPage : Machine where
  readVaddr _ := some 0x2000#64
  readPaddr a := if a = 0x2000#64 then some 0x4000#64
    else if a = 0x4008#64 then some 0x80000010#64 else some 0#64
  swapperPgDir := some 0#64

/-- The entry with the index 1 is not found. -/
theorem not_walks_secondPage : ¬ secondPage.Walks 0x2000#64 := by
  unfold Machine.Walks
  decide

end Arch.Sparc64
