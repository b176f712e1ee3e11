import Makedumpfile.Arch.S390x

/-!
# When the page walk of s390x is right

The function rejects an entry only if it is invalid and of another type, where it should reject it if it
is one or the other; it takes 0 for a failure, also as an entry; and it uses the variable for an entry
of the page table that cannot be read (`Machine.followed`). And with a region-first table the address is
compared by a shift that is too long. So it is right exactly if the address is not rejected by this
shift and the walk does not stray at such an entry (`s390x_walks_iff`).
-/

namespace Arch.S390x

open Lib

variable {m : Machine} {vaddr w e : Word} {level len : Nat}

/-! ## Bits -/

theorem toNat_type (e : Word) : ((e &&& 0x0c#64) >>> 2).toNat = e.toNat / 4 % 4 := by
  rw [show (0x0c#64 : Word) = lowMask 4 &&& ~~~(lowMask 2) by decide, ← BitVec.and_assoc,
    BitVec.toNat_ushiftRight, toNat_and_not_lowMask _ (by decide), toNat_and_lowMask _ (by decide),
    Nat.shiftRight_eq_div_pow]
  omega

theorem toNat_length (e : Word) : (e &&& 0x03#64).toNat = e.toNat % 4 := by
  rw [show (0x03#64 : Word) = lowMask 2 by decide, toNat_and_lowMask _ (by decide)]
  rfl

theorem and_invalid (e : Word) : (e &&& regionEntryInvalid = 0#64) ↔ e.getLsbD 5 = false :=
  and_bit_eq_zero (i := 5) e (by decide)

theorem and_large (e : Word) : (e &&& regionEntryLarge = 0#64) ↔ e.getLsbD 10 = false :=
  and_bit_eq_zero (i := 10) e (by decide)

theorem and_pageBits (e : Word) :
    (e &&& (pageZero ||| pageInvalid) ≠ 0#64) ↔ (e.getLsbD 11 = true ∨ e.getLsbD 10 = true) := by
  have hnat : (e &&& (pageZero ||| pageInvalid)).toNat = e.toNat % 2 ^ 12 / 2 ^ 10 * 2 ^ 10 := by
    rw [show pageZero ||| pageInvalid = lowMask 12 &&& ~~~(lowMask 10) by decide, ← BitVec.and_assoc,
      toNat_and_not_lowMask _ (by decide), toNat_and_lowMask _ (by decide)]
  rw [ne_eq, ← BitVec.toNat_inj, hnat, BitVec.getLsbD, BitVec.getLsbD,
    Nat.testBit_eq_decide_div_mod_eq, Nat.testBit_eq_decide_div_mod_eq, decide_eq_true_iff,
    decide_eq_true_iff, show (0#64 : Word).toNat = 0 from rfl]
  omega

/-- The origin in an entry of a region table. -/
theorem toNat_origin (e : Word) : (e &&& regionEntryOrigin).toNat = e.toNat / 2 ^ 12 * 2 ^ 12 := by
  rw [show regionEntryOrigin = ~~~(lowMask 12) by decide, toNat_and_not_lowMask _ (by decide)]

/-- The origin in an entry of a segment table. -/
theorem toNat_segmentOrigin (e : Word) :
    (e &&& segmentEntryOrigin).toNat = e.toNat / 2 ^ 11 * 2 ^ 11 := by
  rw [show segmentEntryOrigin = ~~~(lowMask 11) by decide, toNat_and_not_lowMask _ (by decide)]

/-- A large page with the address in it. -/
theorem toNat_large (e vaddr : Word) {s : Nat} (hs : 12 ≤ s ∧ s ≤ 31) {mask : Word}
    (hmask : mask = lowMask s) :
    ((e &&& regionEntryOrigin &&& ~~~mask) + (vaddr &&& mask)).toNat =
      e.toNat / 2 ^ s * 2 ^ s + vaddr.toNat % 2 ^ s := by
  subst hmask
  rw [toNat_high_add_low _ _ (by omega), toNat_origin]
  congr 2
  obtain ⟨k, rfl⟩ : ∃ k, s = 12 + k := ⟨s - 12, by omega⟩
  rw [Nat.pow_add, ← Nat.div_div_eq_div_mul, Nat.mul_div_cancel _ (by decide),
    Nat.div_div_eq_div_mul]

/-! ## The walk of the function -/

/-- The levels as the function takes them. -/
def Machine.followed (m : Machine) : Table → PageLevel Origin
  | .rsg level =>
    { m.level (.rsg level) with
      decode := fun e =>
        if e = 0#64 ∨ rsgTableEntryBad e level ∨
            (e.toNat / 4 % 4 ≠ level ∧ e.getLsbD 5 = true) then .absent
        else rsgEntry level e }
  | .page =>
    { m.level .page with
      entry := fun t i => some (((m.level .page).entry t i).getD m.junk)
      decode := fun e => if e = 0#64 then .absent else decodePage e }

/-- The offset of an entry in its table. -/
theorem toNat_rsgOffset (vaddr : Word) (level : Nat) :
    (rsgOffset vaddr level).toNat = vaddr.toNat >>> (20 + 11 * level) % 2048 * 8 := by
  have hmod := Nat.mod_lt (vaddr.toNat >>> (20 + 11 * level)) (show 0 < 2048 by decide)
  rw [rsgOffset, BitVec.toNat_mul, show (0x7ff#64 : Word) = lowMask 11 by decide,
    toNat_shift_and_lowMask _ _ (by decide), Nat.add_comm (11 * level),
    show (8#64 : Word).toNat = 8 from rfl, show 2 ^ 11 = 2048 from rfl, Nat.mod_eq_of_lt (by omega)]

theorem add_rsgOffset (w vaddr : Word) (level : Nat) :
    w + rsgOffset vaddr level =
      BitVec.ofNat 64 (w.toNat + vaddr.toNat >>> (20 + 11 * level) % 2048 * 8) := by
  have hsum := add_index_mul w.toNat ((vaddr >>> (11 * level + 20)) &&& 0x7ff#64)
  rw [ofNat_toNat] at hsum
  rw [rsgOffset, hsum, show (0x7ff#64 : Word) = lowMask 11 by decide,
    toNat_shift_and_lowMask _ _ (by decide), Nat.add_comm (11 * level), show 2 ^ 11 = 2048 from rfl]

/-- **What the function finds in a region or segment table.** -/
theorem lookup_rsg (w vaddr : Word) (len level : Nat) :
    (m.followed (.rsg level)).lookup (w.toNat, len) vaddr.toNat =
      if m.rsgTableDeref vaddr w len level = 0#64 then .absent
      else rsgEntry level (m.rsgTableDeref vaddr w len level) := by
  have hentry : (m.followed (.rsg level)).entry (w.toNat, len)
      (vaddr.toNat >>> (m.followed (.rsg level)).shift) =
      if (rsgOffset vaddr level).toNat < (len + 1) * tableSize then
        m.readmem (w + rsgOffset vaddr level) else none := by
    simp only [toNat_rsgOffset, add_rsgOffset]
    rfl
  unfold Machine.rsgTableDeref
  dsimp only
  by_cases hlen : (rsgOffset vaddr level).toNat < (len + 1) * tableSize
  · rw [if_pos hlen] at hentry
    rw [if_neg (Nat.not_le.2 hlen)]
    cases hread : m.readmem (w + rsgOffset vaddr level) with
    | none =>
      rw [hread] at hentry
      rw [PageLevel.lookup_none (l := m.followed (.rsg level)) hentry]
      rfl
    | some e =>
      rw [hread] at hentry
      rw [PageLevel.lookup_some (l := m.followed (.rsg level)) hentry]
      simp only [Machine.followed, rsgTableLevel, toNat_type, ne_eq, and_invalid, Bool.not_eq_false]
      by_cases hbad : rsgTableEntryBad e level = true
      · rw [if_pos (.inr (.inl hbad)), if_pos hbad, if_pos rfl]
      · by_cases htype : ¬ e.toNat / 4 % 4 = level ∧ e.getLsbD 5 = true
        · rw [if_pos (.inr (.inr htype)), if_neg hbad, if_pos htype, if_pos rfl]
        · by_cases hzero : e = 0#64
          · rw [if_pos (.inl hzero), if_neg hbad, if_neg htype, if_pos hzero]
          · have hgood : ¬ (e = 0#64 ∨ rsgTableEntryBad e level = true ∨
                ¬ e.toNat / 4 % 4 = level ∧ e.getLsbD 5 = true) := by
              rintro (h | h | h)
              · exact hzero h
              · exact hbad h
              · exact htype h
            rw [if_neg hgood, if_neg hbad, if_neg htype, if_neg hzero]
  · rw [if_neg hlen] at hentry
    rw [if_pos (Nat.le_of_not_lt hlen), PageLevel.lookup_none (l := m.followed (.rsg level)) hentry]
    rfl

/-- **What the function finds in a page table.** -/
theorem lookup_page (w vaddr : Word) (len : Nat) :
    (m.followed .page).lookup (w.toNat, len) vaddr.toNat =
      if m.pgTableDeref vaddr w = 0#64 then .absent
      else .leaf ((m.pgTableDeref vaddr w).toNat / 2 ^ 12 * 2 ^ 12) := by
  have hsum := add_index_mul w.toNat ((vaddr >>> 12) &&& 0xff#64)
  rw [ofNat_toNat, show (0xff#64 : Word) = lowMask 8 by decide,
    toNat_shift_and_lowMask _ _ (by decide)] at hsum
  have hentry : (m.followed .page).entry (w.toNat, len)
      (vaddr.toNat >>> (m.followed .page).shift) =
      some ((m.readmem (w + pteOffset vaddr)).getD m.junk) := by
    rw [pteOffset, show (0xff#64 : Word) = lowMask 8 by decide, hsum]
    rfl
  rw [PageLevel.lookup_some (l := m.followed .page) hentry, Machine.pgTableDeref]
  generalize (m.readmem (w + pteOffset vaddr)).getD m.junk = e
  change (if e = 0#64 then PageEntry.absent else decodePage e) = _
  rw [decodePage]
  by_cases hzero : e = 0#64
  · subst hzero
    rfl
  · rw [if_neg hzero]
    by_cases hbad : e.getLsbD 11 = true ∨ e.getLsbD 10 = true
    · rw [if_pos hbad, if_pos ((and_pageBits e).2 hbad), if_pos rfl]
    · rw [if_neg hbad, if_neg (mt (and_pageBits e).1 hbad), if_neg hzero]

/-! ## The walk -/

/-- A page with the address in it. -/
theorem toNat_page (e vaddr : Word) :
    ((e &&& regionEntryOrigin) + (vaddr &&& 0xfff#64)).toNat =
      e.toNat / 2 ^ 12 * 2 ^ 12 + vaddr.toNat % 2 ^ 12 := by
  rw [show regionEntryOrigin = ~~~(lowMask 12) by decide,
    show (0xfff#64 : Word) = lowMask 12 by decide, toNat_high_add_low _ _ (by decide)]

/-- The page table. -/
theorem vtopPage_eq (w vaddr : Word) (len : Nat) :
    (if m.pgTableDeref vaddr w = 0#64 then none
      else some ((m.pgTableDeref vaddr w &&& regionEntryOrigin) + (vaddr &&& 0xfff#64))).map
        BitVec.toNat = pageWalk vaddr.toNat ([Table.page].map m.followed) (w.toNat, len) := by
  have hlookup := lookup_page (m := m) w vaddr len
  rw [List.map_cons]
  by_cases hzero : m.pgTableDeref vaddr w = 0#64
  · rw [if_pos hzero] at hlookup ⊢
    rw [pageWalk_absent _ hlookup]
    rfl
  · rw [if_neg hzero] at hlookup ⊢
    rw [pageWalk_leaf hlookup, Option.map_some, toNat_page]
    rfl

/-- **The loop and what is behind it.** -/
theorem vtopLoop_eq (vaddr : Word) : ∀ (level : Nat) (w : Word) (len : Nat),
    (m.vtopLoop vaddr level w len).map BitVec.toNat =
      pageWalk vaddr.toNat ((tables level).map m.followed) (w.toNat, len)
  | 0, w, len => by
    have hlookup := lookup_rsg (m := m) w vaddr len 0
    rw [Machine.vtopLoop, tables, List.map_cons]
    dsimp only
    generalize m.rsgTableDeref vaddr w len 0 = e at hlookup ⊢
    by_cases hzero : e = 0#64
    · rw [if_pos hzero] at hlookup ⊢
      rw [pageWalk_absent _ hlookup]
      rfl
    · rw [if_neg hzero] at hlookup ⊢
      rw [if_neg (by rintro ⟨-, h⟩; cases h), Machine.vtopSegment,
        show segmentEntryLarge = regionEntryLarge from rfl]
      dsimp only
      by_cases hlarge : e &&& regionEntryLarge = 0#64
      · rw [rsgEntry, if_neg (by rintro ⟨h, -⟩; cases h), if_neg (by decide),
          if_neg (by rw [(and_large e).1 hlarge]; exact Bool.false_ne_true),
          ← toNat_segmentOrigin] at hlookup
        rw [if_neg (not_not.2 hlarge), pageWalk_table hlookup]
        exact vtopPage_eq _ _ _
      · rw [rsgEntry, if_neg (by rintro ⟨h, -⟩; cases h), if_neg (by decide),
          if_pos (eq_true_of_ne_false (mt (and_large e).2 hlarge))] at hlookup
        rw [if_pos hlarge, pageWalk_leaf hlookup, Option.map_some,
          toNat_large e vaddr (s := 20) (by decide) (by decide)]
        rfl
  | level + 1, w, len => by
    have hlookup := lookup_rsg (m := m) w vaddr len (level + 1)
    rw [Machine.vtopLoop, tables, List.map_cons]
    dsimp only
    generalize m.rsgTableDeref vaddr w len (level + 1) = e at hlookup ⊢
    by_cases hzero : e = 0#64
    · rw [if_pos hzero] at hlookup ⊢
      rw [pageWalk_absent _ hlookup]
      rfl
    · rw [if_neg hzero] at hlookup ⊢
      by_cases hlarge : e &&& regionEntryLarge ≠ 0#64 ∧ level + 1 = 1
      · have hbit : level + 1 = 1 ∧ e.getLsbD 10 = true :=
          ⟨hlarge.2, eq_true_of_ne_false (mt (and_large e).2 hlarge.1)⟩
        rw [rsgEntry, if_pos hbit] at hlookup
        rw [if_pos hlarge, pageWalk_leaf hlookup, Option.map_some,
          toNat_large e vaddr (s := 31) (by decide) (by decide)]
        obtain rfl : level = 0 := by omega
        rfl
      · have hbit : ¬ (level + 1 = 1 ∧ e.getLsbD 10 = true) := by
          rintro ⟨h1, hbit⟩
          refine hlarge ⟨fun h => ?_, h1⟩
          rw [(and_large e).1 h] at hbit
          cases hbit
        rw [rsgEntry, if_neg hbit, if_pos (Nat.succ_ne_zero level), ← toNat_origin,
          ← toNat_length] at hlookup
        rw [if_neg hlarge, pageWalk_table hlookup]
        exact vtopLoop_eq vaddr level _ _

/-! ## When it is right -/

/-- The function and the architecture take an entry that both take in the same way. -/
theorem followed_lookup (va : Nat) (n : Table) (t : Origin) (h : (m.level n).lookup t va ≠ .absent)
    (h' : (m.followed n).lookup t va ≠ .absent) :
    (m.followed n).lookup t va = (m.level n).lookup t va := by
  cases n with
  | rsg level =>
    have hsame : (m.followed (.rsg level)).entry t (va >>> (m.followed (.rsg level)).shift) =
        (m.level (.rsg level)).entry t (va >>> (m.level (.rsg level)).shift) := rfl
    cases hentry : (m.level (.rsg level)).entry t (va >>> (m.level (.rsg level)).shift) with
    | none => exact absurd (PageLevel.lookup_none hentry) h
    | some e =>
      rw [PageLevel.lookup_some hentry] at h ⊢
      rw [hentry] at hsame
      rw [PageLevel.lookup_some hsame] at h' ⊢
      have hgood : (m.level (.rsg level)).decode e = rsgEntry level e :=
        if_neg fun hbad => h (if_pos hbad)
      have hgood' : (m.followed (.rsg level)).decode e = rsgEntry level e :=
        if_neg fun hbad => h' (if_pos hbad)
      rw [hgood, hgood']
  | page =>
    have hsame : (m.followed .page).entry t (va >>> (m.followed .page).shift) =
        some (((m.level .page).entry t (va >>> (m.level .page).shift)).getD m.junk) := rfl
    cases hentry : (m.level .page).entry t (va >>> (m.level .page).shift) with
    | none => exact absurd (PageLevel.lookup_none hentry) h
    | some e =>
      rw [PageLevel.lookup_some hentry] at h ⊢
      rw [hentry] at hsame
      rw [PageLevel.lookup_some hsame] at h' ⊢
      exact if_neg fun hzero => h' (if_pos hzero)

/-- The condition at the tables of a root with its first entry. -/
def Machine.Sound (m : Machine) (vaddr table entry : Word) : Prop :=
  let level := entry.toNat / 4 % 4
  if level = 3 ∧ m.shift64 vaddr ≠ 0#64 then
    ∀ pa, pageWalk vaddr.toNat ((tables level).map m.level) (table.toNat, entry.toNat % 4) = some pa →
      pa = 2 ^ 64 - 1
  else
    ∀ pa, Strays vaddr.toNat m.level m.followed (tables level) (table.toNat, entry.toNat % 4) pa →
      pa = 2 ^ 64 - 1

/-- Pages are inside the address space. -/
theorem page_lt (e : Word) (va : Nat) {s : Nat} (hs : s ≤ 64) :
    e.toNat / 2 ^ s * 2 ^ s + va % 2 ^ s < 2 ^ 64 := by
  have hsum := toNat_high_add_low e (BitVec.ofNat 64 va) hs
  rw [BitVec.toNat_ofNat, Nat.mod_mod_of_dvd _ (Nat.pow_dvd_pow 2 hs)] at hsum
  rw [← hsum]
  exact BitVec.isLt _

/-- An entry is a page of the size of its level. -/
def IsPage (shift : Nat) (e : Word) (frame : Nat) : Prop :=
  shift ≤ 64 ∧ frame = e.toNat / 2 ^ shift * 2 ^ shift

theorem rsgEntry_leaf {frame : Nat} (h : rsgEntry level e = .leaf frame) :
    IsPage (20 + 11 * level) e frame := by
  unfold rsgEntry at h
  split at h
  · rename_i hlevel
    cases h
    rw [hlevel.1]
    exact ⟨by decide, rfl⟩
  · split at h
    · cases h
    · rename_i hlevel
      split at h
      · cases h
        rw [not_not.1 hlevel]
        exact ⟨by decide, rfl⟩
      · cases h

theorem decodePage_leaf {frame : Nat} (h : decodePage e = .leaf frame) : IsPage 12 e frame := by
  unfold decodePage at h
  split at h
  · cases h
  · cases h
    exact ⟨by decide, rfl⟩

theorem level_leaf (n : Table) (e : Word) (frame : Nat) (h : (m.level n).decode e = .leaf frame) :
    IsPage (m.level n).shift e frame := by
  cases n with
  | rsg level =>
    change (if _ then _ else _) = _ at h
    split at h
    · cases h
    · exact rsgEntry_leaf h
  | page => exact decodePage_leaf h

theorem followed_leaf (n : Table) (e : Word) (frame : Nat)
    (h : (m.followed n).decode e = .leaf frame) : IsPage (m.followed n).shift e frame := by
  cases n with
  | rsg level =>
    change (if _ then _ else _) = _ at h
    split at h
    · cases h
    · exact rsgEntry_leaf h
  | page =>
    change (if _ then _ else _) = _ at h
    split at h
    · cases h
    · exact decodePage_leaf h

theorem pageWalk_lt {f : Table → PageLevel Origin}
    (hleaf : ∀ n e frame, (f n).decode e = .leaf frame → IsPage (f n).shift e frame)
    (ns : List Table) (va : Nat) (t : Origin) :
    ∀ x ∈ pageWalk va (ns.map f) t, x < 2 ^ 64 := by
  intro x hx
  obtain ⟨⟨frame, s⟩, hfound, rfl⟩ := Option.map_eq_some_iff.1 hx
  obtain ⟨l, hmem, rfl, e, he⟩ := findLeaf_mem hfound
  obtain ⟨n, -, rfl⟩ := List.mem_map.1 hmem
  obtain ⟨hs, rfl⟩ := hleaf n e frame he
  exact page_lt e va hs

/-- The comparison of the address with the depth. -/
theorem tooBig_iff (vaddr : Word) (hlevel : level < 3) :
    m.tooBig vaddr level = true ↔ ¬ vaddr.toNat < 2 ^ (31 + 11 * level) := by
  have hshift : 31 + 11 * level < 64 := by omega
  rw [Machine.tooBig, if_pos hshift, decide_eq_true_iff, ne_eq, ← BitVec.toNat_inj,
    BitVec.toNat_ushiftRight, Nat.shiftRight_eq_div_pow, show (0#64 : Word).toNat = 0 from rfl,
    Nat.div_eq_zero_iff_lt (Nat.two_pow_pos _)]

/-- A table of known depth and an address that fits it. -/
theorem walk_iff (m : Machine) (vaddr table entry : Word)
    (hfit : vaddr.toNat < 2 ^ (31 + 11 * (entry.toNat / 4 % 4))) :
    (if m.tooBig vaddr (entry.toNat / 4 % 4) then none
      else m.vtopLoop vaddr (entry.toNat / 4 % 4) table (entry.toNat % 4)).getD notPaddr =
        paddr (pageWalk vaddr.toNat ((tables (entry.toNat / 4 % 4)).map m.level)
          (table.toNat, entry.toNat % 4)) ↔
      m.Sound vaddr table entry := by
  unfold Machine.Sound
  dsimp only
  have hlevel : entry.toNat / 4 % 4 < 4 := Nat.mod_lt _ (by decide)
  generalize entry.toNat / 4 % 4 = level at hfit hlevel ⊢
  have hshift64 : ∀ h : level = 3, m.tooBig vaddr level = decide (m.shift64 vaddr ≠ 0#64) := by
    rintro rfl
    rfl
  by_cases hlast : level = 3 ∧ m.shift64 vaddr ≠ 0#64
  · rw [if_pos hlast, hshift64 hlast.1, if_pos (decide_eq_true hlast.2), ← paddr_eq_none_iff
      (pageWalk_lt level_leaf (tables level) vaddr.toNat (table.toNat, entry.toNat % 4))]
    exact eq_comm
  · have hfits : ¬ m.tooBig vaddr level = true := by
      by_cases h3 : level = 3
      · rw [hshift64 h3, decide_eq_true_iff]
        exact fun h => hlast ⟨h3, h⟩
      · rw [tooBig_iff vaddr (by omega)]
        exact not_not.2 hfit
    rw [if_neg hlast, if_neg hfits, getD_notPaddr (vtopLoop_eq vaddr level table _)]
    exact paddr_eq_iff_strays (fun n => by cases n <;> rfl) (followed_lookup vaddr.toNat)
      (pageWalk_lt level_leaf _ _ _) (pageWalk_lt followed_leaf _ _ _)

/-- **When the walk is right**: exactly if the shift by 64 bits does not reject an address that has a
page, and no address comes from an entry that only one of the function and the architecture takes. The
last byte of the address space is an exception, since its address is `NOT_PADDR`. -/
theorem s390x_walks_iff (m : Machine) (vaddr : Word) :
    m.Walks vaddr ↔ ∀ table entry, m.swapperPgDir = some table → m.readmem table = some entry →
      vaddr.toNat < 2 ^ (31 + 11 * (entry.toNat / 4 % 4)) → m.Sound vaddr table entry := by
  unfold Machine.Walks Machine.vtop Machine.translation
  cases hroot : m.swapperPgDir with
  | none => exact ⟨fun _ => nofun, fun _ => rfl⟩
  | some table =>
    cases hread : m.readmem table with
    | none =>
      refine ⟨fun _ table' entry' h h' => ?_, fun _ => ?_⟩
      · cases h
        rw [hread] at h'
        cases h'
      · rw [Option.bind_eq_bind, Option.bind_some, Option.bind_eq_bind, Option.bind_some, hread]
        rfl
    | some entry =>
      have hforall : ∀ P : Word → Word → Prop,
          (∀ x y, some table = some x → m.readmem x = some y → P x y) ↔ P table entry := by
        intro P
        refine ⟨fun h => h table entry rfl hread, fun h x y hx hy => ?_⟩
        cases hx
        rw [hread] at hy
        cases hy
        exact h
      rw [hforall]
      simp only [Option.bind_eq_bind, Option.bind_some, hread, tableLevel, tableLength, toNat_type,
        toNat_length]
      by_cases hfit : vaddr.toNat < 2 ^ (31 + 11 * (entry.toNat / 4 % 4))
      · rw [if_pos hfit, walk_iff m vaddr table entry hfit]
        exact ⟨fun h _ => h, fun h => h hfit⟩
      · have hlevel : entry.toNat / 4 % 4 < 3 := by
          have hlt := vaddr.isLt
          have hmod := Nat.mod_lt (entry.toNat / 4) (show 0 < 4 by decide)
          by_contra hge
          have h3 : entry.toNat / 4 % 4 = 3 := by omega
          rw [h3] at hfit
          exact hfit hlt
        rw [if_neg hfit, if_pos ((tooBig_iff vaddr hlevel).2 hfit)]
        exact ⟨fun _ h => absurd h hfit, fun _ => rfl⟩

/-- A segment table whose entries are invalid. -/
def invalidSegment : Machine where
  readmem _ := some 0x420#64
  swapperPgDir := some 0#64
  junk := 0#64
  shift64 := id

/-- The function follows the entry to the page in it. -/
theorem not_walks_invalidSegment : ¬ invalidSegment.Walks 0#64 := by
  unfold Machine.Walks
  decide

end Arch.S390x
