import Makedumpfile.Split.Block

/-!
# The split blocks: the size is converted at every retry, the last block is not counted

* `entrySize_returns_iff`: the doubled `int` never reaches more than `2 ^ 30` pages, and the loop
  then does not end.
* `same_layout_iff`: `check_splitblock_size` multiplies the size by 1024 whenever it is not zero, and
  after the first call it is not zero. So **no retry has the blocks of the first try.**
* `table_exact_iff`: an entry is written when its block is complete. The entry of a last block that
  `max_mapnr` cuts short stays zero, and so **the table is exact only if that block has no dumpable
  page** (and `int pos` does not wrap).
-/

namespace Split

open Lib ByteFile

/-! ## The width of an entry -/

theorem two_pow_le {j : Nat} (h : j ≤ 30) : (2 : Int) ^ j ≤ 2 ^ 30 := by
  exact_mod_cast Nat.pow_le_pow_right (by decide) h

theorem two_pow_pos (j : Nat) : (0 : Int) < 2 ^ j := Int.pow_pos (by decide)

/-- Up to `2 ^ 30` the `int` is doubled. -/
theorem int32_double {j : Nat} (h : j < 30) : int32 (2 ^ j * 2) = 2 ^ (j + 1) := by
  have hle := two_pow_le (j := j + 1) h
  have hpos := two_pow_pos (j + 1)
  rw [← Int.pow_succ]
  exact int32_of_fits (by omega) (by omega)

/-- Above `2 ^ 30` pages: from `2 ^ 30` the `int` goes to `-2 ^ 31` and from there to zero. -/
theorem countLoop_eq_none {pages : Int} (h : 2 ^ 30 < pages) : ∀ (fuel : Nat) {e : Int} (count : Nat),
    ((∃ j : Nat, j ≤ 30 ∧ e = 2 ^ j) ∨ e = -2 ^ 31 ∨ e = 0) → countLoop pages fuel e count = none
  | 0, _, _, _ => rfl
  | fuel + 1, e, count, he => by
    have hle : e ≤ 2 ^ 30 := by
      rcases he with ⟨j, hj, rfl⟩ | rfl | rfl
      · exact two_pow_le hj
      · decide
      · decide
    rw [countLoop, if_pos (by omega)]
    apply countLoop_eq_none h fuel
    rcases he with ⟨j, hj, rfl⟩ | rfl | rfl
    · by_cases h30 : j = 30
      · right
        left
        subst h30
        decide
      · left
        exact ⟨j + 1, by omega, int32_double (by omega)⟩
    · right
      right
      decide
    · right
      right
      decide

/-- A loop that ended has found the power of two that reaches `pages`. -/
theorem countLoop_eq_some {pages : Int} : ∀ {fuel j count : Nat}, j ≤ 30 →
    countLoop pages fuel (2 ^ j) (j + 1) = some count →
    ∃ k, k ≤ 30 ∧ count = k + 1 ∧ pages ≤ 2 ^ k ∧ (k = j ∨ ∃ i, k = i + 1 ∧ 2 ^ i < pages)
  | 0, _, _, _, h => by cases h
  | fuel + 1, j, count, hj, h => by
    by_cases hlt : (2 : Int) ^ j < pages
    · by_cases h30 : 2 ^ 30 < pages
      · rw [countLoop_eq_none h30 _ _ (.inl ⟨j, hj, rfl⟩)] at h
        cases h
      · have hj' : j < 30 := by
          by_contra hge
          rw [show j = 30 by omega] at hlt
          exact h30 hlt
        rw [countLoop, if_pos hlt, int32_double hj'] at h
        obtain ⟨k, hk, hcount, hle, hmin⟩ := countLoop_eq_some hj' h
        refine ⟨k, hk, hcount, hle, .inr ?_⟩
        cases hmin with
        | inl h => exact ⟨j, h, hlt⟩
        | inr h => exact h
    · rw [countLoop, if_neg hlt] at h
      cases h
      exact ⟨j, hj, rfl, by omega, .inl rfl⟩

theorem countLoop_returns {pages : Int} (h : pages ≤ 2 ^ 30) : ∀ {n j fuel : Nat}, j + n = 30 →
    n < fuel → ∃ count, countLoop pages fuel (2 ^ j) (j + 1) = some count
  | n, j, 0, _, hf => absurd hf (Nat.not_lt_zero n)
  | n, j, fuel + 1, hj, hf => by
    by_cases hlt : (2 : Int) ^ j < pages
    · cases n with
      | zero =>
        rw [show j = 30 by omega] at hlt
        omega
      | succ n =>
        rw [countLoop, if_pos hlt, int32_double (by omega)]
        exact countLoop_returns h (n := n) (by omega) (by omega)
    · exact ⟨j + 1, by rw [countLoop, if_neg hlt]⟩

/-- An entry has room for the number of pages of a block. -/
theorem calculateEntrySize_spec {pages : Int} {fuel entrySize : Nat}
    (h : calculateEntrySize pages fuel = some entrySize) :
    pages ≤ 2 ^ 30 ∧ pages < 256 ^ entrySize := by
  unfold calculateEntrySize at h
  obtain ⟨count, hc, rfl⟩ := Option.map_eq_some_iff.1 h
  obtain ⟨k, hk, rfl, hle, -⟩ := countLoop_eq_some (j := 0) (by omega) hc
  have h30 := two_pow_le hk
  refine ⟨by omega, ?_⟩
  have hbits : k + 1 ≤ 8 * (if (k + 1) % 8 ≠ 0 then (k + 1) / 8 + 1 else (k + 1) / 8) := by
    split <;> omega
  have hroom : (2 : Int) ^ (k + 1) ≤
      256 ^ (if (k + 1) % 8 ≠ 0 then (k + 1) / 8 + 1 else (k + 1) / 8) := by
    rw [show (256 : Int) = 2 ^ 8 by decide, ← Int.pow_mul]
    exact_mod_cast Nat.pow_le_pow_right (by decide) hbits
  have hpos := two_pow_pos k
  rw [Int.pow_succ] at hroom
  omega

theorem calculateEntrySize_returns {pages : Int} (h : pages ≤ 2 ^ 30) :
    ∃ entrySize, calculateEntrySize pages 31 = some entrySize := by
  obtain ⟨count, hc⟩ := countLoop_returns h (n := 30) (j := 0) rfl (by decide : 30 < 31)
  unfold calculateEntrySize
  rw [show countLoop pages 31 1 1 = some count from hc]
  exact ⟨_, rfl⟩

/-- **The loop ends** exactly for blocks of at most `2 ^ 30` pages. -/
theorem entrySize_returns_iff (pages : Int) :
    (∃ fuel entrySize, calculateEntrySize pages fuel = some entrySize) ↔ pages ≤ 2 ^ 30 :=
  ⟨fun ⟨_, _, h⟩ => (calculateEntrySize_spec h).1,
    fun h => ⟨31, calculateEntrySize_returns h⟩⟩

theorem newSplitBlock_eq_some {maxMapnr fuel : Nat} {pages : Int} {b : SplitBlock}
    (h : newSplitBlock maxMapnr pages fuel = some b) :
    pages ≠ 0 ∧ calculateEntrySize pages fuel = some b.entrySize ∧ b.pagePerSplitblock = pages ∧
      b.num = (maxMapnr + uint64 (pages - 1)) % 2 ^ 64 / uint64 pages := by
  unfold newSplitBlock at h
  split at h
  · cases h
  · rename_i hne
    obtain ⟨es, hes, rfl⟩ := Option.map_eq_some_iff.1 h
    exact ⟨hne, hes, rfl, rfl⟩

theorem newSplitBlock_returns (maxMapnr : Nat) {pages : Int} (h0 : pages ≠ 0)
    (h : pages ≤ 2 ^ 30) : ∃ b, newSplitBlock maxMapnr pages 31 = some b := by
  obtain ⟨es, hes⟩ := calculateEntrySize_returns h
  unfold newSplitBlock
  rw [if_neg h0, hes]
  exact ⟨_, rfl⟩

/-! ## Retries -/

/-- The block size in bytes that an option value asks for. -/
def requestedSize (v : Int) : Int := if v = 0 then defaultSplitblockSize else v * 1024

variable {c : BlockInfo} {v : Int}

theorem checkSplitblockSize_option (h0 : -(2 ^ 31) ≤ v) (h1 : v < 2 ^ 31) :
    checkSplitblockSize c v =
      (decide (v = 0 ∨ (c.pageSize : Int) ∣ v * 1024), requestedSize v) := by
  unfold checkSplitblockSize requestedSize
  by_cases hv : v = 0
  · rw [if_neg (by simpa using hv), if_pos hv]
    simp [hv]
  · rw [if_pos hv, if_neg hv]
    dsimp only
    rw [show (2 : Int) ^ 10 = 1024 by decide, int64_of_fits (by omega) (by omega)]
    have hne : v * 1024 ≠ 0 := by omega
    simp [hv, Int.dvd_iff_tmod_eq_zero]

/-- The size that the call leaves is 1024 times the one that it finds, unless that is zero. -/
theorem prepareSplitblockTable_size {fuel : Nat} {size : Int} {p : Prepared} (hs : size ≠ 0)
    (h : prepareSplitblockTable c fuel size = some p) :
    p.splitblockSize = int64 (size * 1024) := by
  have h2 : (checkSplitblockSize c size).2 = int64 (size * 1024) := by
    unfold checkSplitblockSize
    rw [if_pos hs]
    rfl
  unfold prepareSplitblockTable at h
  split at h
  · rename_i size' heq
    rw [heq] at h2
    cases h
    exact h2
  · rename_i size' heq
    rw [heq] at h2
    obtain ⟨b, -, rfl⟩ := Option.map_eq_some_iff.1 h
    exact h2

theorem head_mem_prepareCalls (c : BlockInfo) (fuel n : Nat) (size : Int) :
    prepareSplitblockTable c fuel size ∈ prepareCalls c fuel n size := by
  cases n with
  | zero => exact List.mem_singleton.2 rfl
  | succ n => exact List.mem_cons_self

/-- Each call that is made returns, and its block size and the parts that come from it are those of
the first call. -/
def SameLayout (c : BlockInfo) (v : Int) (n : Nat) : Prop :=
  ∃ fuel first, prepareSplitblockTable c fuel v = some first ∧
    ∀ r ∈ prepareCalls c fuel n v, ∃ p, r = some p ∧ p.splitblockSize = first.splitblockSize ∧
      ∀ pfnCyclic elf dumpable numDumpfile,
        partsOf c p pfnCyclic elf dumpable numDumpfile =
          partsOf c first pfnCyclic elf dumpable numDumpfile

theorem sameLayout_of_refused {n : Nat} (hc : (checkSplitblockSize c v).1 = false) :
    SameLayout c v n := by
  have hp : prepareSplitblockTable c 0 v =
      some { splitblockSize := (checkSplitblockSize c v).2, block := none } := by
    unfold prepareSplitblockTable
    split
    · rename_i heq
      rw [heq]
    · rename_i heq
      rw [heq] at hc
      cases hc
  refine ⟨0, _, hp, fun r hr => ?_⟩
  have hr' : r = prepareSplitblockTable c 0 v := by
    cases n with
    | zero => exact List.mem_singleton.1 hr
    | succ n =>
      rw [prepareCalls, hp] at hr
      rw [hp]
      exact List.mem_singleton.1 hr
  exact ⟨_, hr'.trans hp, rfl, fun _ _ _ _ => rfl⟩

/-- A call with a size that is accepted. -/
theorem prepareSplitblockTable_accepted {size : Int} (fuel : Nat)
    (hc : checkSplitblockSize c v = (true, size)) :
    prepareSplitblockTable c fuel v =
      (newSplitBlock c.maxMapnr (size.tdiv c.pageSize) fuel).map fun b =>
        { splitblockSize := size, block := some b } := by
  unfold prepareSplitblockTable
  rw [hc]

/-- The second call finds the size in bytes and takes it for one in kilobytes. -/
theorem not_sameLayout_succ {n : Nat} (h0 : -(2 ^ 31) ≤ v) (h1 : v < 2 ^ 31)
    (hcheck : checkSplitblockSize c v = (true, requestedSize v)) : ¬ SameLayout c v (n + 1) := by
  intro ⟨fuel, first, hfirst, hall⟩
  rw [prepareSplitblockTable_accepted fuel hcheck] at hfirst
  obtain ⟨b, hb, rfl⟩ := Option.map_eq_some_iff.1 hfirst
  have hsize : requestedSize v ≠ 0 ∧ requestedSize v ≤ 2 ^ 41 ∧ -(2 ^ 41) ≤ requestedSize v := by
    unfold requestedSize defaultSplitblockSize
    split <;> omega
  have hmem : prepareSplitblockTable c fuel (requestedSize v) ∈ prepareCalls c fuel (n + 1) v := by
    rw [prepareCalls, prepareSplitblockTable_accepted fuel hcheck, hb]
    exact List.mem_cons_of_mem _ (head_mem_prepareCalls c fuel n _)
  obtain ⟨p, hp, hps, -⟩ := hall _ hmem
  rw [prepareSplitblockTable_size hsize.1 hp, int64_of_fits (by omega) (by omega)] at hps
  dsimp only at hps
  omega

theorem sameLayout_zero_iff (hcheck : checkSplitblockSize c v = (true, requestedSize v)) :
    SameLayout c v 0 ↔ (requestedSize v).tdiv c.pageSize ≠ 0 ∧
      (requestedSize v).tdiv c.pageSize ≤ 2 ^ 30 := by
  constructor
  · intro ⟨fuel, first, hfirst, _⟩
    rw [prepareSplitblockTable_accepted fuel hcheck] at hfirst
    obtain ⟨b, hb, rfl⟩ := Option.map_eq_some_iff.1 hfirst
    obtain ⟨hne, hes, -⟩ := newSplitBlock_eq_some hb
    exact ⟨hne, (calculateEntrySize_spec hes).1⟩
  · intro ⟨hne, hle⟩
    obtain ⟨b, hb⟩ := newSplitBlock_returns c.maxMapnr hne hle
    refine ⟨31, { splitblockSize := requestedSize v, block := some b }, ?_, ?_⟩
    · rw [prepareSplitblockTable_accepted 31 hcheck, hb]
      rfl
    · intro r hr
      rw [List.mem_singleton.1 hr, prepareSplitblockTable_accepted 31 hcheck, hb]
      exact ⟨_, rfl, rfl, fun _ _ _ _ => rfl⟩

/-- **The blocks of a retry**: they are those of the first try exactly if the option is refused at
once, or there is no retry (and the first call returns). -/
theorem same_layout_iff (c : BlockInfo) (v : Int) (n : Nat) (h0 : -(2 ^ 31) ≤ v)
    (h1 : v < 2 ^ 31) :
    SameLayout c v n ↔
      (v ≠ 0 ∧ ¬ (c.pageSize : Int) ∣ v * 1024) ∨
        (n = 0 ∧ (requestedSize v).tdiv c.pageSize ≠ 0 ∧
          (requestedSize v).tdiv c.pageSize ≤ 2 ^ 30) := by
  have hcheck := @checkSplitblockSize_option c v h0 h1
  by_cases hok : v = 0 ∨ (c.pageSize : Int) ∣ v * 1024
  · rw [decide_eq_true hok] at hcheck
    have hnot : ¬ (v ≠ 0 ∧ ¬ (c.pageSize : Int) ∣ v * 1024) := by
      intro h
      cases hok with
      | inl h' => exact h.1 h'
      | inr h' => exact h.2 h'
    rw [or_iff_right hnot]
    cases n with
    | zero => rw [sameLayout_zero_iff hcheck, eq_self, true_and]
    | succ n =>
      exact ⟨fun h => absurd h (not_sameLayout_succ h0 h1 hcheck),
        fun h => absurd h.1 (Nat.succ_ne_zero n)⟩
  · rw [decide_eq_false hok] at hcheck
    have hno : v ≠ 0 ∧ ¬ (c.pageSize : Int) ∣ v * 1024 :=
      ⟨fun h => hok (.inl h), fun h => hok (.inr h)⟩
    exact ⟨fun _ => .inl hno, fun _ => sameLayout_of_refused (by rw [hcheck])⟩

/-- The pages of most machines. -/
theorem four_kib_pos : 0 < 4096 := by decide

/-- Pages of 4 KiB, 8 GiB of memory. -/
def smallMachine : BlockInfo := { pageSize := 4096, maxMapnr := 2 ^ 21, pageSize_pos := four_kib_pos }

theorem same_layout_one_try : SameLayout smallMachine 1024 0 :=
  (same_layout_iff smallMachine 1024 0 (by decide) (by decide)).2
    (.inr ⟨rfl, by decide, by decide⟩)

/-- Blocks of 1 GiB, and of 1 TiB in the retry. -/
theorem retry_has_larger_blocks : ¬ SameLayout smallMachine 0 1 :=
  not_sameLayout_succ (by decide) (by decide) (by decide)

/-! ## The table -/

/-- The bytes of an entry. -/
def entryBytes (pages : Nat) : Nat :=
  if pages ≤ 2 ^ 7 then 1 else if pages ≤ 2 ^ 15 then 2 else if pages ≤ 2 ^ 23 then 3 else 4

theorem calculateEntrySize_eq {pages fuel entrySize : Nat}
    (h : calculateEntrySize pages fuel = some entrySize) : entrySize = entryBytes pages := by
  unfold calculateEntrySize at h
  obtain ⟨count, hc, rfl⟩ := Option.map_eq_some_iff.1 h
  obtain ⟨k, hk, rfl, hle, hmin⟩ := countLoop_eq_some (j := 0) (by omega) hc
  have hle' : pages ≤ 2 ^ k := by exact_mod_cast hle
  have hmin' : k = 0 ∨ 2 ^ (k - 1) < pages := by
    rcases hmin with h0 | ⟨i, rfl, hi⟩
    · exact .inl h0
    · exact .inr (by exact_mod_cast hi)
  -- `k` is in the range of one width, and `pages` between the powers of two at its ends
  have hlt : ∀ j, j ≤ 30 → (pages ≤ 2 ^ j ↔ k ≤ j) := by
    intro j hj
    constructor
    · intro hp
      rcases hmin' with h0 | h1
      · omega
      · by_contra hjk
        have : 2 ^ j ≤ 2 ^ (k - 1) := Nat.pow_le_pow_right (by decide) (by omega)
        omega
    · intro hkj
      exact Nat.le_trans hle' (Nat.pow_le_pow_right (by decide) hkj)
  unfold entryBytes
  simp only [hlt 7 (by decide), hlt 15 (by decide), hlt 23 (by decide)]
  split <;> split <;> first | omega | (split <;> first | omega | (split <;> omega))

/-- The dumpable page frames of `[k * pages, (k + 1) * pages)` that are below `n`. -/
def blockCount (pages : Nat) (dumpable : Nat → Bool) (n k : Nat) : Nat :=
  (List.range n).countP fun pfn => dumpable pfn && decide (k * pages ≤ pfn ∧ pfn < (k + 1) * pages)

section Count

variable {pages : Nat} {dumpable : Nat → Bool}

theorem in_block_iff (hp : 1 ≤ pages) {pfn k : Nat} :
    (k * pages ≤ pfn ∧ pfn < (k + 1) * pages) ↔ pfn / pages = k := by
  rw [Nat.div_eq_iff hp]
  rw [Nat.add_mul, Nat.one_mul]
  omega

theorem blockCount_succ (hp : 1 ≤ pages) (n k : Nat) :
    blockCount pages dumpable (n + 1) k =
      blockCount pages dumpable n k + if dumpable n ∧ n / pages = k then 1 else 0 := by
  unfold blockCount
  rw [List.range_succ, List.countP_append, List.countP_singleton]
  congr 1
  simp only [in_block_iff hp, Bool.and_eq_true, decide_eq_true_eq]

/-- No page frame of a later block has been seen. -/
theorem blockCount_eq_zero {n k : Nat} (h : n ≤ k * pages) :
    blockCount pages dumpable n k = 0 := by
  unfold blockCount
  rw [List.countP_eq_zero]
  intro pfn hpfn
  have := List.mem_range.1 hpfn
  simp only [Bool.and_eq_true, decide_eq_true_eq]
  omega

theorem blockCount_le (hp : 1 ≤ pages) (n k : Nat) : blockCount pages dumpable n k ≤ pages := by
  -- the count grows with each frame of the block, at most to the frame's place in it
  have h : ∀ n, blockCount pages dumpable n k ≤ min (n - k * pages) pages := by
    intro n
    induction n with
    | zero => simp [blockCount]
    | succ n ih =>
      rw [blockCount_succ hp]
      split
      · rename_i h
        obtain ⟨h1, h2⟩ := (in_block_iff hp).2 h.2
        rw [Nat.add_mul, Nat.one_mul] at h2
        omega
      · omega
  exact Nat.le_trans (h n) (Nat.min_le_right _ _)

/-- The page frames of the blocks below `num`. -/
theorem sum_blockCount_eq (n : Nat) : ∀ num : Nat,
    ((List.range num).map (blockCount pages dumpable n)).sum =
      (List.range n).countP fun pfn => dumpable pfn && decide (pfn < num * pages)
  | 0 => by simp
  | num + 1 => by
    rw [List.range_succ, List.map_append, List.sum_append, sum_blockCount_eq n num,
      List.map_singleton, List.sum_singleton, blockCount]
    generalize List.range n = l
    induction l with
    | nil => rfl
    | cons pfn l ih =>
      simp only [List.countP_cons, Bool.and_eq_true, decide_eq_true_eq]
      rw [Nat.add_mul, Nat.one_mul] at ih ⊢
      by_cases hd : dumpable pfn
      · simp only [hd, true_and]
        split <;> split <;> split <;> omega
      · simp only [hd, false_and, if_false, Bool.false_eq_true]
        omega

theorem sum_blockCount {n num : Nat} (h : n ≤ num * pages) :
    ((List.range num).map (blockCount pages dumpable n)).sum = (List.range n).countP dumpable := by
  rw [sum_blockCount_eq]
  apply List.countP_congr
  intro pfn hpfn
  have := List.mem_range.1 hpfn
  simp only [Bool.and_eq_true, decide_eq_true_eq]
  exact ⟨And.left, fun hd => ⟨hd, by omega⟩⟩

end Count

/-! ## Filling the table -/

/-- The blocks that `prepare_splitblock_table` sets up for blocks of `pages` pages. -/
structure BlockOk (b : SplitBlock) (maxMapnr pages : Nat) : Prop where
  pages_pos : 1 ≤ pages
  pages_le : pages ≤ 2 ^ 30
  pagePerSplitblock : uint64 b.pagePerSplitblock = pages
  entrySize : b.entrySize = entryBytes pages
  room : pages < 256 ^ b.entrySize
  num : b.num = divideup maxMapnr pages

theorem entryBytes_le (pages : Nat) : 1 ≤ entryBytes pages ∧ entryBytes pages ≤ 4 := by
  unfold entryBytes
  split
  · decide
  · split
    · decide
    · split <;> decide

theorem newSplitBlock_ok {maxMapnr pages fuel : Nat} {b : SplitBlock} (hp : 1 ≤ pages)
    (hm : maxMapnr ≤ 2 ^ 52) (h : newSplitBlock maxMapnr pages fuel = some b) :
    BlockOk b maxMapnr pages := by
  obtain ⟨-, hes, hpages, hnum⟩ := newSplitBlock_eq_some h
  obtain ⟨hle, hroom⟩ := calculateEntrySize_spec hes
  have hle' : pages ≤ 2 ^ 30 := by exact_mod_cast hle
  have hu : uint64 (pages : Int) = pages := by
    unfold uint64
    omega
  have hu1 : uint64 ((pages : Int) - 1) = pages - 1 := by
    unfold uint64
    omega
  refine ⟨hp, hle', by rw [hpages, hu], calculateEntrySize_eq hes, by exact_mod_cast hroom, ?_⟩
  rw [hnum, hu, hu1, Nat.mod_eq_of_lt (by omega)]
  rfl

/-- After `n` page frames: the counters, and the entries of the complete blocks. -/
structure CountInv (b : SplitBlock) (pages : Nat) (dumpable : Nat → Bool) (n : Nat)
    (s : CountState) : Prop where
  total : s.numDumpable = (List.range n).countP dumpable
  inBlock : s.dumpablePfnNum = blockCount pages dumpable n (n / pages)
  pfnNum : s.pfnNum = n % pages
  pos : s.pos = int32 ((n / pages * b.entrySize : Nat) : Int)
  length : s.table.length = b.entrySize * b.num
  written : ∀ k < n / pages, readFromSplitblockTable b.entrySize s.table (k * b.entrySize) =
    blockCount pages dumpable n k
  unwritten : ∀ k, n / pages ≤ k → k < b.num →
    readFromSplitblockTable b.entrySize s.table (k * b.entrySize) = 0

section Fill

variable {b : SplitBlock} {maxMapnr pages n : Nat} {dumpable : Nat → Bool} {s : CountState}

theorem leNat_replicate_zero : ∀ n : Nat, leNat (List.replicate n 0) = 0
  | 0 => rfl
  | n + 1 => by
    have ih := leNat_replicate_zero n
    unfold leNat at ih ⊢
    rw [List.replicate_succ, List.foldr_cons, ih]
    rfl

theorem countInv_init : CountInv b pages dumpable 0 (countInit b) where
  total := rfl
  inBlock := by simp [blockCount, countInit]
  pfnNum := by simp [countInit]
  pos := by simp [countInit, int32]
  length := by simp [countInit]
  written := by simp
  unwritten := by
    intro k _ _
    unfold readFromSplitblockTable countInit pread
    rw [List.drop_replicate, List.take_replicate]
    exact leNat_replicate_zero _

theorem div_succ_of_lt (h : n % pages + 1 < pages) :
    (n + 1) / pages = n / pages ∧ (n + 1) % pages = n % pages + 1 := by
  apply (Nat.div_mod_unique (by omega)).2
  have := Nat.div_add_mod n pages
  exact ⟨by rw [Nat.mul_comm] at *; omega, h⟩

theorem div_succ_of_eq (h : n % pages + 1 = pages) :
    (n + 1) / pages = n / pages + 1 ∧ (n + 1) % pages = 0 := by
  apply (Nat.div_mod_unique (by omega)).2
  have := Nat.div_add_mod n pages
  rw [Nat.mul_add, Nat.mul_one]
  omega

/-- The entry of the block of the frame that is looked at. -/
theorem count_add (hb : BlockOk b maxMapnr pages) (hs : CountInv b pages dumpable n s) :
    (if dumpable n then s.dumpablePfnNum + 1 else s.dumpablePfnNum) =
      blockCount pages dumpable (n + 1) (n / pages) := by
  rw [blockCount_succ hb.pages_pos, hs.inBlock]
  cases dumpable n with
  | true => simp
  | false => simp

theorem total_add (hs : CountInv b pages dumpable n s) :
    (if dumpable n then s.numDumpable + 1 else s.numDumpable) =
      (List.range (n + 1)).countP dumpable := by
  rw [List.range_succ, List.countP_append, List.countP_singleton, hs.total]
  cases dumpable n with
  | true => simp
  | false => simp

theorem blockCount_keep (hp : 1 ≤ pages) {k : Nat} (h : k < n / pages) :
    blockCount pages dumpable (n + 1) k = blockCount pages dumpable n k := by
  rw [blockCount_succ hp, if_neg (by omega), Nat.add_zero]

/-- A frame that does not complete its block. -/
theorem countStep_within (hb : BlockOk b maxMapnr pages) (hs : CountInv b pages dumpable n s)
    (h : n % pages + 1 < pages) :
    ∃ s', countStep b dumpable s n = some s' ∧ CountInv b pages dumpable (n + 1) s' := by
  obtain ⟨hdiv, hmod⟩ := div_succ_of_lt h
  unfold countStep
  rw [hb.pagePerSplitblock, hs.pfnNum, if_neg (by omega)]
  refine ⟨_, rfl, total_add hs, ?_, ?_, ?_, hs.length, ?_, ?_⟩
  · rw [hdiv]
    exact count_add hb hs
  · rw [hmod]
  · rw [hdiv]
    exact hs.pos
  · intro k hk
    rw [hdiv] at hk
    rw [blockCount_keep hb.pages_pos hk]
    exact hs.written k hk
  · rw [hdiv]
    exact hs.unwritten

/-- Entries do not overlap. -/
theorem entry_le {j k e : Nat} (h : j < k) : j * e + e ≤ k * e := by
  rw [← Nat.succ_mul]
  exact Nat.mul_le_mul_right _ h

theorem read_write_self (table : List UInt8) (pos : Nat) {e value : Nat} (h : value < 256 ^ e) :
    readFromSplitblockTable e (writeIntoSplitblockTable e table pos value) pos = value := by
  have hself := pread_pwrite_self table pos (leBytes e value)
  rw [length_leBytes] at hself
  unfold readFromSplitblockTable writeIntoSplitblockTable
  rw [hself]
  exact leNat_leBytes_of_lt h

theorem read_write_other (table : List UInt8) {e value j k : Nat} (hjk : k ≠ j)
    (hlen : k * e + e ≤ table.length) :
    readFromSplitblockTable e (writeIntoSplitblockTable e table (j * e) value) (k * e) =
      readFromSplitblockTable e table (k * e) := by
  unfold readFromSplitblockTable writeIntoSplitblockTable
  rw [pread_pwrite_of_disjoint hlen]
  rw [length_leBytes]
  cases Nat.lt_or_gt_of_ne hjk with
  | inl h => exact .inl (entry_le h)
  | inr h => exact .inr (entry_le h)

/-- A frame that completes its block: the entry is written. -/
theorem countStep_complete (hb : BlockOk b maxMapnr pages) (hs : CountInv b pages dumpable n s)
    (hn : n < maxMapnr) (h : n % pages + 1 = pages) (hpos : n / pages * b.entrySize < 2 ^ 31) :
    ∃ s', countStep b dumpable s n = some s' ∧ CountInv b pages dumpable (n + 1) s' := by
  obtain ⟨hdiv, hmod⟩ := div_succ_of_eq h
  have hspos : s.pos = (n / pages * b.entrySize : Nat) := by
    rw [hs.pos]
    exact int32_of_fits (by omega) (by omega)
  have hlt : n / pages < b.num := by
    rw [hb.num]
    have := le_divideup_mul maxMapnr hb.pages_pos
    exact (Nat.div_lt_iff_lt_mul hb.pages_pos).2 (by omega)
  have hin : ∀ {k}, k < b.num → k * b.entrySize + b.entrySize ≤ s.table.length := by
    intro k hk
    rw [hs.length, Nat.mul_comm b.entrySize]
    exact entry_le hk
  have hfit : blockCount pages dumpable (n + 1) (n / pages) < 256 ^ b.entrySize :=
    Nat.lt_of_le_of_lt (blockCount_le hb.pages_pos _ _) hb.room
  unfold countStep
  rw [hb.pagePerSplitblock, hs.pfnNum, if_pos (by omega), count_add hb hs, hspos,
    Int.toNat_natCast, if_pos ⟨by omega, hin hlt⟩]
  refine ⟨_, rfl, total_add hs, ?_, ?_, ?_, ?_, ?_, ?_⟩
  · have := Nat.div_add_mod n pages
    rw [hdiv]
    refine (blockCount_eq_zero ?_).symm
    rw [Nat.add_mul, Nat.one_mul, Nat.mul_comm (n / pages)]
    omega
  · rw [hmod]
  · dsimp only
    rw [hdiv, Nat.succ_mul, Nat.cast_add]
  · have := hin hlt
    unfold writeIntoSplitblockTable
    rw [length_pwrite, length_leBytes, ← hs.length]
    split <;> omega
  · intro k hk
    rw [hdiv] at hk
    dsimp only
    by_cases hkn : k = n / pages
    · rw [hkn]
      exact read_write_self _ _ hfit
    · rw [read_write_other _ hkn (hin (by omega)), blockCount_keep hb.pages_pos (by omega)]
      exact hs.written k (by omega)
  · intro k hk hkn
    rw [hdiv] at hk
    dsimp only
    rw [read_write_other _ (by omega) (hin hkn)]
    exact hs.unwritten k (by omega) hkn

/-- A block whose entry is past `2 ^ 31`: the first such `int` is negative. -/
theorem countStep_outside (hb : BlockOk b maxMapnr pages) (hs : CountInv b pages dumpable n s)
    (h : n % pages + 1 = pages) (hge : 2 ^ 31 ≤ n / pages * b.entrySize)
    (hlt : n / pages * b.entrySize < 2 ^ 32) : countStep b dumpable s n = none := by
  have hspos : s.pos < 0 := by
    rw [hs.pos]
    unfold int32
    omega
  unfold countStep
  rw [hb.pagePerSplitblock, hs.pfnNum, if_pos (by omega), if_neg (by omega)]

/-- The first `n` frames, when the entries of their complete blocks are below `2 ^ 31`. -/
theorem countSteps_inv (dumpable : Nat → Bool) (hb : BlockOk b maxMapnr pages) : ∀ {n : Nat},
    n ≤ maxMapnr →
    (∀ k < n / pages, k * b.entrySize < 2 ^ 31) →
    ∃ s, (List.range n).foldlM (countStep b dumpable) (countInit b) = some s ∧
      CountInv b pages dumpable n s
  | 0, _, _ => ⟨_, rfl, countInv_init⟩
  | n + 1, hn, hpos => by
    have hmono : n / pages ≤ (n + 1) / pages := Nat.div_le_div_right (Nat.le_succ n)
    obtain ⟨s, hs, hinv⟩ := countSteps_inv dumpable hb (n := n) (by omega) fun k hk => hpos k (by omega)
    have hstep : ∃ s', countStep b dumpable s n = some s' ∧
        CountInv b pages dumpable (n + 1) s' := by
      have hmod := Nat.mod_lt n hb.pages_pos
      by_cases hend : n % pages + 1 = pages
      · refine countStep_complete hb hinv hn hend (hpos _ ?_)
        rw [(div_succ_of_eq hend).1]
        omega
      · exact countStep_within hb hinv (by omega)
    obtain ⟨s', hs', hinv'⟩ := hstep
    refine ⟨s', ?_, hinv'⟩
    rw [List.range_succ, List.foldlM_append, hs]
    simp only [Option.bind_eq_bind, Option.bind_some, List.foldlM_cons, List.foldlM_nil, hs']
    rfl

theorem foldlM_countStep_eq_none {m : Nat} (hnm : n < m)
    (hs : (List.range n).foldlM (countStep b dumpable) (countInit b) = some s)
    (h : countStep b dumpable s n = none) :
    (List.range m).foldlM (countStep b dumpable) (countInit b) = none := by
  obtain ⟨d, rfl⟩ := Nat.exists_eq_add_of_le (show n + 1 ≤ m from hnm)
  rw [List.range_add, List.range_succ, List.append_assoc, List.foldlM_append, hs]
  simp [h]

/-- One of the complete blocks has its entry past `2 ^ 31`. -/
theorem countSteps_eq_none (hb : BlockOk b maxMapnr pages)
    (h : ¬ ∀ k < maxMapnr / pages, k * b.entrySize < 2 ^ 31) :
    (List.range maxMapnr).foldlM (countStep b dumpable) (countInit b) = none := by
  have hes := entryBytes_le pages
  rw [← hb.entrySize] at hes
  have hex : ∃ k, k < maxMapnr / pages ∧ 2 ^ 31 ≤ k * b.entrySize := by
    by_contra hno
    exact h fun k hk => Nat.lt_of_not_le fun hge => hno ⟨k, hk, hge⟩
  classical
  -- the first such block, and the frame that completes it
  obtain ⟨hk, hge⟩ := Nat.find_spec hex
  have hmin : ∀ j < Nat.find hex, j * b.entrySize < 2 ^ 31 := fun j hj =>
    Nat.lt_of_not_le fun hge' => Nat.find_min hex hj ⟨by omega, hge'⟩
  generalize Nat.find hex = k at hk hge hmin
  have hlt : k * b.entrySize < 2 ^ 32 := by
    cases k with
    | zero => omega
    | succ k =>
      have := hmin k (by omega)
      rw [Nat.succ_mul]
      omega
  have hp := hb.pages_pos
  have hdiv : (k * pages + (pages - 1)) / pages = k ∧ (k * pages + (pages - 1)) % pages = pages - 1 :=
    (Nat.div_mod_unique hp).2 ⟨by rw [Nat.mul_comm pages]; omega, by omega⟩
  have hn : k * pages + (pages - 1) < maxMapnr := by
    have h1 := Nat.div_mul_le_self maxMapnr pages
    have h2 := @entry_le k (maxMapnr / pages) pages hk
    omega
  obtain ⟨s, hs, hinv⟩ := countSteps_inv dumpable hb (Nat.le_of_lt hn)
    (by rw [hdiv.1]; exact hmin)
  exact foldlM_countStep_eq_none hn hs
    (countStep_outside hb hinv (by omega) (by rw [hdiv.1]; exact hge) (by rw [hdiv.1]; exact hlt))

end Fill

/-- Every entry of the filled table is the number of dumpable pages of its block, and together the
entries are the number that is returned. -/
def TableExact (maxMapnr pages pfnCyclic : Nat) (elf : Bool) (dumpable : Nat → Bool) : Prop :=
  ∃ fuel b total table, newSplitBlock maxMapnr pages fuel = some b ∧
    getNumDumpableCyclicWithsplit b pfnCyclic elf maxMapnr dumpable = some (total, table) ∧
    (∀ k < b.num, readFromSplitblockTable b.entrySize table (k * b.entrySize) =
      blockCount pages dumpable maxMapnr k) ∧
    ((List.range b.num).map fun k =>
      readFromSplitblockTable b.entrySize table (k * b.entrySize)).sum = total

section Exact

variable {b : SplitBlock} {maxMapnr pages pfnCyclic : Nat} {elf : Bool} {dumpable : Nat → Bool}

/-- The windows together are one loop over all frames. -/
theorem withsplit_eq (hc : 0 < pfnCyclic) :
    getNumDumpableCyclicWithsplit b pfnCyclic elf maxMapnr dumpable =
      ((List.range maxMapnr).foldlM (countStep b dumpable) (countInit b)).map fun s =>
        (s.numDumpable, s.table) := by
  unfold getNumDumpableCyclicWithsplit
  rw [foldlM_flatMap, PfnCycle.forEachCycle_pages hc, Nat.sub_zero, List.range_eq_range']

/-- The last block, when `max_mapnr` cuts it short, has no dumpable page. -/
def LastBlockEmpty (maxMapnr pages : Nat) (dumpable : Nat → Bool) : Prop :=
  ∀ pfn, maxMapnr / pages * pages ≤ pfn → pfn < maxMapnr → dumpable pfn = false

theorem blockCount_last_eq_zero_iff (hp : 1 ≤ pages) :
    blockCount pages dumpable maxMapnr (maxMapnr / pages) = 0 ↔
      LastBlockEmpty maxMapnr pages dumpable := by
  unfold blockCount LastBlockEmpty
  rw [List.countP_eq_zero]
  have hlt : ∀ pfn, pfn < maxMapnr → pfn < (maxMapnr / pages + 1) * pages := by
    intro pfn hpfn
    have := Nat.lt_div_mul_add hp (a := maxMapnr)
    rw [Nat.add_mul, Nat.one_mul]
    omega
  constructor
  · intro h pfn hge hpfn
    have := h pfn (List.mem_range.2 hpfn)
    simp only [hge, hlt pfn hpfn, and_self, decide_true, Bool.and_true] at this
    simpa using this
  · intro h pfn hpfn
    have hpfn := List.mem_range.1 hpfn
    by_cases hge : maxMapnr / pages * pages ≤ pfn
    · simp [h pfn hge hpfn]
    · simp [hge]

/-- Blocks past the last page frame. -/
theorem div_lt_num_iff (hb : BlockOk b maxMapnr pages) :
    maxMapnr / pages < b.num ↔ maxMapnr / pages * pages < maxMapnr := by
  have hp := hb.pages_pos
  have h1 := le_divideup_mul maxMapnr hp
  have h2 := divideup_mul_lt maxMapnr hp
  rw [hb.num]
  constructor
  · intro h
    have := @entry_le _ _ pages h
    omega
  · intro h
    refine Nat.lt_of_not_le fun hle => ?_
    have := Nat.mul_le_mul_right pages hle
    omega

/-- A table whose writes were all inside it. -/
theorem entries_exact_iff (hb : BlockOk b maxMapnr pages) {s : CountState}
    (hs : CountInv b pages dumpable maxMapnr s) :
    (∀ k < b.num, readFromSplitblockTable b.entrySize s.table (k * b.entrySize) =
      blockCount pages dumpable maxMapnr k) ↔ LastBlockEmpty maxMapnr pages dumpable := by
  have hp := hb.pages_pos
  rw [← blockCount_last_eq_zero_iff hp]
  constructor
  · intro h
    by_cases hlast : maxMapnr / pages < b.num
    · rw [← h _ hlast]
      exact hs.unwritten _ (Nat.le_refl _) hlast
    · refine blockCount_eq_zero ?_
      rw [div_lt_num_iff hb] at hlast
      omega
  · intro h k hk
    by_cases hlt : k < maxMapnr / pages
    · exact hs.written k hlt
    · rw [hs.unwritten k (by omega) hk]
      by_cases heq : k = maxMapnr / pages
      · rw [heq, h]
      · have h1 := Nat.lt_div_mul_add hp (a := maxMapnr)
        have h2 := @entry_le (maxMapnr / pages) k pages (by omega)
        rw [blockCount_eq_zero (by omega)]

theorem le_num_mul (hb : BlockOk b maxMapnr pages) : maxMapnr ≤ b.num * pages := by
  rw [hb.num]
  exact le_divideup_mul maxMapnr hb.pages_pos

/-- The places of the entries of complete blocks. -/
theorem places_fit_iff {e full : Nat} :
    (∀ k < full, k * e < 2 ^ 31) ↔ (full - 1) * e < 2 ^ 31 := by
  cases full with
  | zero => simp
  | succ full =>
    rw [Nat.add_sub_cancel]
    constructor
    · intro h
      exact h full (by omega)
    · intro h k hk
      have := Nat.mul_le_mul_right e (show k ≤ full by omega)
      omega

end Exact

/-- **When the table is exact**: the width of an entry can be computed, the places of the entries fit
an `int`, and there is no dumpable page in a last block that is not complete. -/
theorem table_exact_iff (maxMapnr pages pfnCyclic : Nat) (elf : Bool) (dumpable : Nat → Bool)
    (hm : maxMapnr ≤ 2 ^ 52) (hp : 1 ≤ pages) (hc : 0 < pfnCyclic) :
    TableExact maxMapnr pages pfnCyclic elf dumpable ↔
      pages ≤ 2 ^ 30 ∧ (maxMapnr / pages - 1) * entryBytes pages < 2 ^ 31 ∧
        LastBlockEmpty maxMapnr pages dumpable := by
  rw [← places_fit_iff]
  constructor
  · intro ⟨fuel, b, total, table, hb, hrun, hentries, _⟩
    have hok := newSplitBlock_ok hp hm hb
    rw [withsplit_eq hc] at hrun
    obtain ⟨s, hs, hst⟩ := Option.map_eq_some_iff.1 hrun
    cases hst
    rw [← hok.entrySize]
    by_cases hfit : ∀ k < maxMapnr / pages, k * b.entrySize < 2 ^ 31
    · obtain ⟨s', hs', hinv⟩ := countSteps_inv dumpable hok (Nat.le_refl _) hfit
      cases hs.symm.trans hs'
      exact ⟨hok.pages_le, hfit, (entries_exact_iff hok hinv).1 hentries⟩
    · rw [countSteps_eq_none hok hfit] at hs
      cases hs
  · intro ⟨hle, hfit, hlast⟩
    obtain ⟨b, hb⟩ := @newSplitBlock_returns maxMapnr pages (by omega) (by omega)
    have hok := newSplitBlock_ok hp hm hb
    rw [← hok.entrySize] at hfit
    obtain ⟨s, hs, hinv⟩ := countSteps_inv dumpable hok (Nat.le_refl _) hfit
    have hentries := (entries_exact_iff hok hinv).2 hlast
    refine ⟨31, b, s.numDumpable, s.table, hb, by rw [withsplit_eq hc, hs]; rfl, hentries, ?_⟩
    rw [hinv.total, ← sum_blockCount (le_num_mul hok)]
    congr 1
    apply List.map_congr_left
    intro k hk
    exact hentries k (List.mem_range.1 hk)

/-- Blocks of four pages, and page frames 0 to 9: the last block has two frames. -/
theorem table_exact_ten_frames :
    TableExact 10 4 8 false (fun pfn => decide (pfn < 7)) :=
  (table_exact_iff 10 4 8 false _ (by decide) (by decide) (by decide)).2
    ⟨by decide, by decide, fun pfn hge _ => decide_eq_false (by omega)⟩

/-- Frame 9 is dumpable, and the entry of its block is zero. -/
theorem last_block_not_counted : ¬ TableExact 10 4 8 false (fun pfn => decide (pfn = 9)) := by
  intro ⟨fuel, b, total, table, hb, hrun, hentries, _⟩
  have hok := @newSplitBlock_ok 10 4 fuel b (by decide) (by decide) hb
  rw [withsplit_eq (by decide)] at hrun
  obtain ⟨s, hs, hst⟩ := Option.map_eq_some_iff.1 hrun
  cases hst
  have hes : b.entrySize = 1 := hok.entrySize
  obtain ⟨s', hs', hinv⟩ := countSteps_inv (fun pfn => decide (pfn = 9)) hok
    (Nat.le_refl _) (fun k hk => by rw [hes]; omega)
  cases hs.symm.trans hs'
  have h9 := (entries_exact_iff hok hinv).1 hentries 9 (by decide) (by decide)
  cases h9

end Split
