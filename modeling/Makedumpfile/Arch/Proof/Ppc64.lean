import Makedumpfile.Arch.Ppc64

/-!
# When the page walk of ppc64 is right

All tables but the PGD fit into a page (`Config.fits`), so an aligned table is in the page that the
function reads, and the entry is found (`readEntry_eq`). The entry of the PGD is found exactly if its
index is right (`ppc64_walks_iff`): the PGD of the radix MMU is larger than a page of 4 KiB, and before 3.10
the index has 9 bits.
-/

namespace Arch.Ppc64

open Lib

variable {c : Config} {m : Machine} {vaddr e : Word} {s bits t : Nat}

/-! ## Layouts -/

theorem Config.pageShift_cases (c : Config) : c.pageShift = 16 ∨ c.pageShift = 12 := by
  unfold Config.pageShift
  cases c.page64k <;> simp

/-- Page tables, PMDs and PUDs fit into a page, and 44 bits are enough for every layout. -/
theorem Config.fits (c : Config) :
    c.vmallocInit.l1IndexSize + 3 ≤ c.pageShift ∧ c.vmallocInit.l2IndexSize + 3 ≤ c.pageShift ∧
      c.vmallocInit.l3IndexSize + 3 ≤ c.pageShift ∧ c.vmallocInit.l4IndexSize ≤ 13 ∧
      c.l4Shift ≤ 44 := by
  simp only [Config.l4Shift, Config.l3Shift, Config.l2Shift, Config.l1Shift, Config.vmallocInit,
    Config.indexSizes, Config.pageShift]
  split
  · split
    · simp
    · split
      · split
        · split <;> simp
        · simp
      · split <;> simp
  · split
    · simp
    · split <;> simp

/-- Either the mask leaves 57 bits, or at least 5 bits more are shifted out than in. -/
theorem Config.pteRpn_cases (c : Config) :
    (c.vmallocInit.pteRpnMask.toNat < 2 ^ 57 ∧ c.vmallocInit.pteRpnShift = c.pageShift) ∨
      c.pageShift + 5 ≤ c.vmallocInit.pteRpnShift := by
  simp only [Config.vmallocInit, Config.pteRpn, Config.pageShift]
  cases c.page64k <;> simp only [Bool.false_eq_true, if_true, if_false]
  · split
    · exact .inl ⟨by decide, rfl⟩
    · split
      · exact .inl ⟨by decide, rfl⟩
      · exact .inr (by split <;> omega)
  · split
    · exact .inl ⟨by decide, rfl⟩
    · split
      · exact .inl ⟨by decide, rfl⟩
      · exact .inr (by split <;> omega)

/-- A page frame is an address of 59 bits. -/
theorem frame_lt (c : Config) (e : Word) : (c.frame e).toNat < 2 ^ 59 := by
  have hle : (c.frame e).toNat ≤
      (e &&& c.vmallocInit.pteRpnMask).toNat / 2 ^ c.vmallocInit.pteRpnShift * 2 ^ c.pageShift := by
    unfold Config.frame Config.pagebase
    rw [BitVec.toNat_and, BitVec.toNat_shiftLeft, BitVec.toNat_ushiftRight, Nat.shiftLeft_eq,
      Nat.shiftRight_eq_div_pow]
    exact Nat.le_trans Nat.and_le_left (Nat.mod_le _ _)
  refine Nat.lt_of_le_of_lt hle ?_
  rcases c.pteRpn_cases with ⟨hmask, hshift⟩ | hshift
  · rw [hshift]
    refine Nat.lt_of_le_of_lt (Nat.div_mul_le_self _ _) ?_
    rw [BitVec.toNat_and]
    exact Nat.lt_of_le_of_lt Nat.and_le_right (Nat.lt_trans hmask (by decide))
  · have hpow : 2 ^ (5 + c.pageShift) ≤ 2 ^ c.vmallocInit.pteRpnShift :=
      Nat.pow_le_pow_right (by decide) (by omega)
    have hdiv := Nat.div_le_div_left (a := (e &&& c.vmallocInit.pteRpnMask).toNat) hpow
      (Nat.two_pow_pos _)
    rw [Nat.pow_add, ← Nat.div_div_eq_div_mul] at hdiv
    have hmul := Nat.mul_le_mul_right (2 ^ c.pageShift) hdiv
    have hself := Nat.div_mul_le_self ((e &&& c.vmallocInit.pteRpnMask).toNat / 2 ^ 5)
      (2 ^ c.pageShift)
    have hlt := (e &&& c.vmallocInit.pteRpnMask).isLt
    omega

/-- A page and the address in it. -/
theorem toNat_page (e vaddr : Word) (hs : s ≤ 44) :
    (c.frame e + (vaddr &&& (1#64 <<< s - 1#64))).toNat = (c.frame e).toNat + vaddr.toNat % 2 ^ s := by
  have hframe := frame_lt c e
  have hmod := Nat.mod_lt vaddr.toNat (Nat.two_pow_pos s)
  have hpow : 2 ^ s ≤ 2 ^ 44 := Nat.pow_le_pow_right (by decide) hs
  rw [show (1#64 <<< s - 1#64 : Word) = lowMask s from rfl, BitVec.toNat_add,
    toNat_and_lowMask _ (by omega), Nat.mod_eq_of_lt (by omega)]

/-! ## Entries -/

theorem toNat_pageoffset (c : Config) (x : Word) : (c.pageoffset x).toNat = x.toNat % 2 ^ c.pageShift :=
  toNat_and_lowMask x (by have := c.pageShift_cases; omega)

theorem toNat_pagebase (c : Config) (x : Word) :
    (c.pagebase x).toNat = x.toNat / 2 ^ c.pageShift * 2 ^ c.pageShift :=
  toNat_and_not_lowMask x (by have := c.pageShift_cases; omega)

/-- What is below the end of the page is in the page. -/
theorem pagebase_add {w : Word} {k : Nat} (h : w.toNat % 2 ^ c.pageShift + k < 2 ^ c.pageShift) :
    c.pagebase (BitVec.ofNat 64 (w.toNat + k)) = c.pagebase w := by
  have hw := w.isLt
  apply BitVec.eq_of_toNat_eq
  rw [toNat_pagebase, toNat_pagebase, BitVec.toNat_ofNat]
  rcases c.pageShift_cases with hps | hps <;> rw [hps] at h ⊢ <;> omega

/-- An aligned table that fits into a page does not cross its end. -/
theorem table_in_page (hfit : bits + 3 ≤ c.pageShift) (ht : 2 ^ (bits + 3) ∣ t) (i : Nat) :
    t % 2 ^ c.pageShift + i % 2 ^ bits * 8 < 2 ^ c.pageShift := by
  have hpage : 2 ^ c.pageShift = 2 ^ (bits + 3) * 2 ^ (c.pageShift - (bits + 3)) := by
    rw [← Nat.pow_add, Nat.add_sub_cancel' hfit]
  obtain ⟨q, rfl⟩ := ht
  rw [hpage, Nat.mul_mod_mul_left]
  have hq := Nat.mod_lt q (Nat.two_pow_pos (c.pageShift - (bits + 3)))
  have hi := Nat.mod_lt i (Nat.two_pow_pos bits)
  have hmul := Nat.mul_le_mul_left (2 ^ (bits + 3)) (Nat.succ_le_of_lt hq)
  rw [Nat.mul_succ] at hmul
  have height : 2 ^ (bits + 3) = 2 ^ bits * 8 := Nat.pow_add 2 bits 3
  omega

/-- **The entry of an aligned table that fits into a page** is the one of the index. -/
theorem readEntry_eq (w vaddr : Word) (decode : Word → PageEntry Nat)
    (hfit : bits + 3 ≤ m.pageShift) (hw : 2 ^ (bits + 3) ∣ w.toNat) :
    m.readEntry w ((vaddr >>> s) &&& (1#64 <<< bits - 1#64)) =
      (m.level s bits decode).entry w.toNat (vaddr.toNat >>> s) := by
  have hbits : bits ≤ 64 := by
    have := m.pageShift_cases
    omega
  have hindex := add_index_mul w.toNat ((vaddr >>> s) &&& (1#64 <<< bits - 1#64))
  rw [ofNat_toNat, show (1#64 <<< bits - 1#64 : Word) = lowMask bits from rfl,
    toNat_shift_and_lowMask _ _ hbits] at hindex
  simp only [Machine.readEntry, Machine.level, Machine.entryAt]
  rw [show (1#64 <<< bits - 1#64 : Word) = lowMask bits from rfl, hindex,
    pagebase_add (table_in_page hfit hw _)]

/-! ## The walk -/

theorem TablesAligned.below {va t' : Nat} {l : PageLevel Nat × Nat} {ls : List (PageLevel Nat × Nat)}
    (h : TablesAligned va (l :: ls) t) (hl : l.1.lookup t va = .table t') : TablesAligned va ls t' := by
  have hbelow := h.2
  rw [hl] at hbelow
  exact hbelow

theorem and_pagePte (e : Word) : (e &&& pagePte = 0#64) ↔ e.getLsbD 62 = false :=
  and_bit_eq_zero e (by decide)

/-- **A level above the page table**: the entry is read, and what follows is the continuation. -/
theorem upper_eq {w index masked : Word} {ls : List (PageLevel Nat × Nat)} (hs : s ≤ 44)
    (hentry : m.readEntry w index =
      (m.level s bits (m.decodeUpper masked)).entry w.toNat (vaddr.toNat >>> s))
    (haligned : TablesAligned vaddr.toNat ((m.level s bits (m.decodeUpper masked), bits) :: ls) w.toNat)
    {cont : Word → Option Word}
    (hcont : ∀ e, TablesAligned vaddr.toNat ls (m.pageVaddrL4 masked e).toNat →
      (cont e).map BitVec.toNat =
        pageWalk vaddr.toNat (ls.map Prod.fst) (m.pageVaddrL4 masked e).toNat) :
    ((m.readEntry w index).bind fun e =>
        if e = 0#64 then none
        else if e &&& pagePte ≠ 0#64 then some (m.hugepage e vaddr s)
        else cont e).map BitVec.toNat =
      pageWalk vaddr.toNat
        (((m.level s bits (m.decodeUpper masked), bits) :: ls).map Prod.fst) w.toNat := by
  rw [List.map_cons, pageWalk_cons, hentry]
  change _ = ((m.level s bits (m.decodeUpper masked)).entry w.toNat (vaddr.toNat >>> s)).bind fun e =>
    (m.decodeUpper masked e).resolve vaddr.toNat s (ls.map Prod.fst)
  cases hread : (m.level s bits (m.decodeUpper masked)).entry w.toNat (vaddr.toNat >>> s) with
  | none => rfl
  | some e =>
    rw [Option.bind_some, Option.bind_some]
    have hlookup := PageLevel.lookup_some (l := m.level s bits (m.decodeUpper masked)) hread
    change _ = m.decodeUpper masked e at hlookup
    by_cases hzero : e = 0#64
    · rw [Machine.decodeUpper, if_pos hzero, if_pos hzero]
      rfl
    · by_cases hhuge : e &&& pagePte = 0#64
      · have hbit : ¬ e.getLsbD 62 = true := by
          rw [(and_pagePte e).1 hhuge]
          exact Bool.false_ne_true
        rw [Machine.decodeUpper, if_neg hzero, if_neg hbit] at hlookup
        rw [Machine.decodeUpper, if_neg hzero, if_neg hzero, if_neg hbit, if_neg (not_not.2 hhuge)]
        exact hcont e (haligned.below hlookup)
      · have hbit : e.getLsbD 62 = true := eq_true_of_ne_false (mt (and_pagePte e).2 hhuge)
        rw [Machine.decodeUpper, if_neg hzero, if_neg hzero, if_pos hbit, if_pos hhuge]
        exact congrArg some (toNat_page e vaddr hs)

/-- The page table and what is below it. -/
theorem pte_eq {w : Word}
    (hw : 2 ^ (m.vmallocInit.l1IndexSize + 3) ∣ w.toNat) :
    ((m.readEntry w (m.pteOffset vaddr)).bind fun pte =>
        if pte &&& m.pagePresent = 0#64 then none
        else some (m.frame pte + m.pageoffset vaddr)).map BitVec.toNat =
      pageWalk vaddr.toNat [m.level m.l1Shift m.vmallocInit.l1IndexSize m.decodePte] w.toNat := by
  have hps := m.pageShift_cases
  rw [pageWalk_cons, Config.pteOffset, readEntry_eq w vaddr m.decodePte m.fits.1 hw]
  change _ = ((m.level m.pageShift m.vmallocInit.l1IndexSize m.decodePte).entry w.toNat
    (vaddr.toNat >>> m.pageShift)).bind fun e => (m.decodePte e).resolve vaddr.toNat m.pageShift []
  cases (m.level m.pageShift m.vmallocInit.l1IndexSize m.decodePte).entry w.toNat
      (vaddr.toNat >>> m.pageShift) with
  | none => rfl
  | some e =>
    rw [Option.bind_some, Option.bind_some, Machine.decodePte]
    by_cases hpresent : e &&& m.pagePresent = 0#64
    · rw [if_pos hpresent, if_pos hpresent]
      rfl
    · rw [if_neg hpresent, if_neg hpresent]
      exact congrArg some (toNat_page e vaddr (by omega))

/-- The levels from the PMD on. -/
def Machine.lowerLevels (m : Machine) : List (PageLevel Nat × Nat) :=
  [(m.level m.l2Shift m.vmallocInit.l2IndexSize (m.decodeUpper m.vmallocInit.pmdMaskedBits),
      m.vmallocInit.l2IndexSize),
    (m.level m.l1Shift m.vmallocInit.l1IndexSize m.decodePte, m.vmallocInit.l1IndexSize)]

theorem l2Shift_le (c : Config) : c.l2Shift ≤ 44 ∧ c.l3Shift ≤ 44 := by
  have hfits := c.fits
  simp only [Config.l4Shift, Config.l3Shift] at hfits ⊢
  omega

/-- From the PMD on. -/
theorem vtopPmd_eq (haligned : TablesAligned vaddr.toNat m.lowerLevels
      (m.pageVaddrL4 m.vmallocInit.pudMaskedBits e).toNat) :
    (m.vtopPmd vaddr e).map BitVec.toNat =
      pageWalk vaddr.toNat (m.lowerLevels.map Prod.fst)
        (m.pageVaddrL4 m.vmallocInit.pudMaskedBits e).toNat :=
  upper_eq (l2Shift_le _).1
    (readEntry_eq _ vaddr (m.decodeUpper m.vmallocInit.pmdMaskedBits) m.fits.2.1 haligned.1)
    haligned fun _ hpte => pte_eq hpte.1

/-- From the PUD on, or from the PMD on if there is none. -/
theorem vtopPud_eq (h3 : m.vmallocInit.l3IndexSize ≠ 0) {ls : List (PageLevel Nat × Nat)}
    (hls : ls = (m.level m.l3Shift m.vmallocInit.l3IndexSize
      (m.decodeUpper m.vmallocInit.pudMaskedBits), m.vmallocInit.l3IndexSize) :: m.lowerLevels)
    (haligned : TablesAligned vaddr.toNat ls (m.pageVaddrL4 m.vmallocInit.pgdMaskedBits e).toNat) :
    (m.vtopPud vaddr e).map BitVec.toNat =
      pageWalk vaddr.toNat (ls.map Prod.fst)
        (m.pageVaddrL4 m.vmallocInit.pgdMaskedBits e).toNat := by
  subst hls
  rw [Machine.vtopPud, if_pos h3]
  exact upper_eq (l2Shift_le _).2
    (readEntry_eq _ vaddr (m.decodeUpper m.vmallocInit.pudMaskedBits) m.fits.2.2.1 haligned.1)
    haligned fun _ => vtopPmd_eq

/-! ## The index of the PGD entry -/

/-- The index with the mask. -/
def Config.maskedIndex (c : Config) (vaddr : Word) : Nat :=
  if mkKernelVersion 3 10 0 ≤ c.kernelVersion then
    vaddr.toNat >>> c.l4Shift % 2 ^ c.vmallocInit.l4IndexSize
  else vaddr.toNat >>> c.l4Shift % 512

theorem toNat_pgdOffsetL4 (c : Config) (vaddr : Word) :
    (c.pgdOffsetL4 vaddr).toNat = c.maskedIndex vaddr := by
  unfold Config.pgdOffsetL4 Config.pgdMaskL4 Config.maskedIndex
  split
  · exact toNat_shift_and_lowMask _ _ (by have := c.fits.2.2.2.1; omega)
  · rw [show (0x1ff#64 : Word) = lowMask 9 by decide]
    exact toNat_shift_and_lowMask _ _ (by decide)

/-- With the right index the entry is in the page where the PGD starts. -/
theorem pgd_in_page {l4 p i : Nat} (ht : 2 ^ (l4 + 3) ∣ p) (hi : i % 2 ^ l4 < 2 ^ (c.pageShift - 3)) :
    p % 2 ^ c.pageShift + i % 2 ^ l4 * 8 < 2 ^ c.pageShift := by
  by_cases hfit : l4 + 3 ≤ c.pageShift
  · exact table_in_page hfit ht i
  · have hdvd : 2 ^ c.pageShift ∣ p := Nat.dvd_trans (Nat.pow_dvd_pow 2 (by omega)) ht
    rw [Nat.mod_eq_zero_of_dvd hdvd]
    rcases c.pageShift_cases with hps | hps <;> rw [hps] at hi ⊢ <;> omega

/-- The same offset in a page. -/
theorem pageoffset_index (w : Word) (i j : Word) {a : Nat}
    (h : i.toNat % 2 ^ (c.pageShift - 3) = a) (ha : j = BitVec.ofNat 64 (w.toNat + a * 8)) :
    c.pageoffset (w + i * 8#64) = c.pageoffset j := by
  have hsum := add_index_mul w.toNat i
  rw [ofNat_toNat] at hsum
  apply BitVec.eq_of_toNat_eq
  rw [toNat_pageoffset, toNat_pageoffset, hsum, ha, BitVec.toNat_ofNat, BitVec.toNat_ofNat]
  rcases c.pageShift_cases with hps | hps <;> rw [hps] at h ⊢ <;> omega

/-- **The entry of the PGD** is found with the right index. -/
theorem pgd_entry {decode : Word → PageEntry Nat} (hindex : m.PgdIndexOk vaddr)
    (hpgd : 2 ^ (m.vmallocInit.l4IndexSize + 3) ∣ m.kernelPgd.toNat) :
    m.readEntry m.kernelPgd (m.pgdOffsetL4 vaddr) =
      (m.level m.l4Shift m.vmallocInit.l4IndexSize decode).entry m.kernelPgd.toNat
        (vaddr.toNat >>> m.l4Shift) := by
  have hmasked : (m.pgdOffsetL4 vaddr).toNat % 2 ^ (m.pageShift - 3) =
      vaddr.toNat >>> m.l4Shift % 2 ^ m.vmallocInit.l4IndexSize := by
    rw [toNat_pgdOffsetL4]
    exact hindex
  have hlt : vaddr.toNat >>> m.l4Shift % 2 ^ m.vmallocInit.l4IndexSize < 2 ^ (m.pageShift - 3) := by
    rw [← hmasked]
    exact Nat.mod_lt _ (Nat.two_pow_pos _)
  simp only [Machine.readEntry, Machine.level, Machine.entryAt]
  rw [pagebase_add (pgd_in_page hpgd hlt), pageoffset_index m.kernelPgd _ _ hmasked rfl]

/-- With the right index the walk is right. -/
theorem walks_of_index (hindex : c.PgdIndexOk vaddr) : c.Walks vaddr := by
  rintro m rfl haligned
  refine getD_notPaddr ?_
  unfold Machine.translation
  by_cases h3 : m.vmallocInit.l3IndexSize ≠ 0
  · have hlevels : m.levels = (m.level m.l4Shift m.vmallocInit.l4IndexSize
          (m.decodeUpper m.vmallocInit.pgdMaskedBits), m.vmallocInit.l4IndexSize) ::
        (m.level m.l3Shift m.vmallocInit.l3IndexSize
          (m.decodeUpper m.vmallocInit.pudMaskedBits), m.vmallocInit.l3IndexSize) ::
        m.lowerLevels := if_pos h3
    rw [hlevels] at haligned ⊢
    exact upper_eq m.fits.2.2.2.2 (pgd_entry hindex haligned.1) haligned
      fun e hbelow => vtopPud_eq h3 rfl hbelow
  · have hlevels : m.levels = (m.level m.l4Shift m.vmallocInit.l4IndexSize
          (m.decodeUpper m.vmallocInit.pudMaskedBits), m.vmallocInit.l4IndexSize) ::
        m.lowerLevels := if_neg h3
    rw [hlevels] at haligned ⊢
    refine upper_eq m.fits.2.2.2.2 (pgd_entry hindex haligned.1) haligned fun e hbelow => ?_
    rw [Machine.vtopPud, if_neg h3]
    exact vtopPmd_eq hbelow

/-! ## When it is right -/

/-- A PGD at address 0 with a huge page in one entry, and nothing else. -/
def oneEntry (c : Config) (page offset : Word) : Machine where
  toConfig := c
  readpage base := some fun off => if base = page ∧ off = offset then BitVec.allOnes 64 else 0#64
  kernelStart := 0#64
  kernelPgd := 0#64
  littleEndian := false

theorem readpage_oneEntry {page offset base off : Word} :
    ((oneEntry c page offset).readpage base).map (fun pageBuf =>
        swap64 (pageBuf off) (oneEntry c page offset).swap) =
      some (if base = page ∧ off = offset then BitVec.allOnes 64 else 0#64) := by
  have hswap : (oneEntry c page offset).swap = false := by simp [Machine.swap, oneEntry]
  rw [hswap]
  rfl

/-- The first level of every layout. -/
theorem levels_cons (m : Machine) : ∃ masked ls, m.levels =
    (m.level m.l4Shift m.vmallocInit.l4IndexSize (m.decodeUpper masked),
      m.vmallocInit.l4IndexSize) :: ls := by
  unfold Machine.levels
  by_cases h3 : m.vmallocInit.l3IndexSize ≠ 0
  · exact ⟨_, _, if_pos h3⟩
  · exact ⟨_, _, if_neg h3⟩

/-- The word at the masked index is the one of the index only if the index is right. -/
theorem index_of_same {i : Nat} (hi : i = vaddr.toNat >>> c.l4Shift % 2 ^ c.vmallocInit.l4IndexSize)
    (hbase : c.pagebase 0#64 = c.pagebase (BitVec.ofNat 64 (0 + i * 8)))
    (hoff : c.pageoffset (0#64 + c.pgdOffsetL4 vaddr * 8#64) =
      c.pageoffset (BitVec.ofNat 64 (0 + i * 8))) : c.PgdIndexOk vaddr := by
  have hbound : i < 2 ^ 13 := by
    rw [hi]
    exact Nat.lt_of_lt_of_le (Nat.mod_lt _ (Nat.two_pow_pos _))
      (Nat.pow_le_pow_right (by decide) c.fits.2.2.2.1)
  have hmasked := toNat_pgdOffsetL4 c vaddr
  have hbase' := congrArg BitVec.toNat hbase
  have hoff' := congrArg BitVec.toNat hoff
  rw [toNat_pagebase, toNat_pagebase, BitVec.toNat_ofNat, BitVec.toNat_ofNat, Nat.zero_mod,
    Nat.zero_div, Nat.zero_mul] at hbase'
  rw [toNat_pageoffset, toNat_pageoffset, add_index_mul, BitVec.toNat_ofNat, BitVec.toNat_ofNat,
    hmasked] at hoff'
  have hgoal : c.maskedIndex vaddr % 2 ^ (c.pageShift - 3) = i := by
    generalize c.maskedIndex vaddr = j at hoff' ⊢
    clear hi hmasked hbase hoff
    rcases c.pageShift_cases with hps | hps <;> rw [hps] at hbase' hoff' ⊢ <;> omega
  rw [hi] at hgoal
  exact hgoal

/-- With another index the function does not see the huge page. -/
theorem index_of_walks (h : c.Walks vaddr) : c.PgdIndexOk vaddr := by
  obtain ⟨i, hi⟩ : ∃ i, i = vaddr.toNat >>> c.l4Shift % 2 ^ c.vmallocInit.l4IndexSize := ⟨_, rfl⟩
  obtain ⟨a, ha⟩ : ∃ a, a = BitVec.ofNat 64 (0 + i * 8) := ⟨_, rfl⟩
  obtain ⟨m, hm⟩ : ∃ m, m = oneEntry c (c.pagebase a) (c.pageoffset a) := ⟨_, rfl⟩
  have hc : m.toConfig = c := by rw [hm]; rfl
  have hroot : m.kernelPgd = 0#64 := by rw [hm]; rfl
  obtain ⟨masked, ls, hlevels⟩ := levels_cons m
  have hentry : (m.level m.l4Shift m.vmallocInit.l4IndexSize (m.decodeUpper masked)).entry 0
      (vaddr.toNat >>> m.l4Shift) = some (BitVec.allOnes 64) := by
    change m.entryAt (BitVec.ofNat 64 (0 + vaddr.toNat >>> m.l4Shift %
      2 ^ m.vmallocInit.l4IndexSize * 8)) = _
    rw [hc, ← hi, ← ha, Machine.entryAt, hc, hm, readpage_oneEntry, if_pos ⟨rfl, rfl⟩]
  have hlookup : (m.level m.l4Shift m.vmallocInit.l4IndexSize (m.decodeUpper masked)).lookup 0
      vaddr.toNat = .leaf (m.frame (BitVec.allOnes 64)).toNat := by
    have hzero : ¬ BitVec.allOnes 64 = 0#64 := by decide
    have hbit : (BitVec.allOnes 64).getLsbD 62 = true := by decide
    rw [PageLevel.lookup_some hentry]
    change m.decodeUpper masked (BitVec.allOnes 64) = _
    rw [Machine.decodeUpper, if_neg hzero, if_pos hbit]
  have haligned : TablesAligned vaddr.toNat m.levels m.kernelPgd.toNat := by
    rw [hlevels, hroot]
    refine ⟨Nat.dvd_zero _, ?_⟩
    rw [show (0#64 : Word).toNat = 0 from rfl, hlookup]
    trivial
  have hwalk := h m hc haligned
  by_contra hindex
  have hread : m.readEntry m.kernelPgd (m.pgdOffsetL4 vaddr) = some 0#64 := by
    rw [hroot, Machine.readEntry, hc, hm, readpage_oneEntry, if_neg]
    rintro ⟨hbase, hoff⟩
    rw [ha] at hbase hoff
    exact hindex (index_of_same hi hbase hoff)
  have hnone : m.vtopLevel4 vaddr = paddr none := by
    rw [Machine.vtopLevel4, hread]
    rfl
  rw [hnone, Machine.translation, hlevels, hroot, List.map_cons, pageWalk] at hwalk
  rw [show (0#64 : Word).toNat = 0 from rfl, findLeaf_leaf hlookup] at hwalk
  have hlt := frame_lt m.toConfig (BitVec.allOnes 64)
  have hmod := Nat.mod_lt vaddr.toNat (Nat.two_pow_pos m.l4Shift)
  have hpow : 2 ^ m.l4Shift ≤ 2 ^ 44 := Nat.pow_le_pow_right (by decide) m.fits.2.2.2.2
  have hnone := (@paddr_inj none _ (by simp) (fun x hx => ?_)).1 hwalk
  · cases hnone
  · rw [Option.map_some, Option.mem_some_iff] at hx
    subst hx
    change _ + vaddr.toNat % 2 ^ m.l4Shift < _
    omega

/-- **When the walk is right**: exactly if the index of the PGD entry is. -/
theorem ppc64_walks_iff (c : Config) (vaddr : Word) : c.Walks vaddr ↔ c.PgdIndexOk vaddr :=
  ⟨index_of_walks, walks_of_index⟩

/-- The radix MMU with pages of 4 KiB, at the entry 512 of the PGD. -/
theorem not_walks_radix :
    ¬ Config.Walks
      { page64k := false, radix := true, kernelVersion := mkKernelVersion 5 0 0
        demoteSegment4k := false }
      (512#64 <<< 39) := by
  intro h
  have hindex := index_of_walks h
  unfold Config.PgdIndexOk at hindex
  exact absurd hindex (by decide)

end Arch.Ppc64
