import Makedumpfile.Bitmap.Plan
import Mathlib.Data.List.Chain

/-!
# The cycles cover the memory unless the buffer has no byte

The windows of `for_each_cycle` follow one another from a multiple of 8 at or below `start` to the
limit (`cycleLoop_tiles`), for every positive `pfn_cyclic` that is a multiple of 8 or reaches the limit
at once; both ways `initial` computes it give such a number, if it is not zero. Nothing keeps it from
being zero: without free memory the buffers have no byte, and neither with fewer than four page frames
for each dump file (`plan_ok_iff`).
-/

namespace PfnCycle

open Lib

/-! ## The windows -/

/-- Windows that are not empty and follow one another from `a` to `b`. -/
def Tiles : Nat → Nat → List PfnCycle → Prop
  | a, b, [] => a = b
  | a, b, c :: cs => c.startPfn = a ∧ c.startPfn < c.endPfn ∧ Tiles c.endPfn b cs

theorem Tiles.le : ∀ {cs : List PfnCycle} {a b : Nat}, Tiles a b cs → a ≤ b
  | [], _, _, h => Nat.le_of_eq h
  | _ :: _, _, _, h => by
    have := Tiles.le h.2.2
    have := h.1
    have := h.2.1
    omega

theorem Tiles.mem : ∀ {cs : List PfnCycle} {a b : Nat}, Tiles a b cs → ∀ c ∈ cs,
    a ≤ c.startPfn ∧ c.startPfn < c.endPfn ∧ c.endPfn ≤ b
  | [], _, _, _, _, hc => absurd hc (by simp)
  | c :: cs, a, b, h, c', hc => by
    have hle := Tiles.le h.2.2
    have h1 := h.1
    have h2 := h.2.1
    cases List.mem_cons.1 hc with
    | inl heq =>
      subst heq
      omega
    | inr hmem =>
      have := Tiles.mem h.2.2 c' hmem
      omega

theorem Tiles.covers : ∀ {cs : List PfnCycle} {a b : Nat}, Tiles a b cs → ∀ {pfn : Nat},
    a ≤ pfn → pfn < b → ∃ c ∈ cs, c.startPfn ≤ pfn ∧ pfn < c.endPfn
  | [], a, b, h, pfn, h1, h2 => by
    have : a = b := h
    omega
  | c :: cs, a, b, h, pfn, h1, h2 => by
    by_cases hlt : pfn < c.endPfn
    · exact ⟨c, List.mem_cons_self, by have := h.1; omega, hlt⟩
    · obtain ⟨c', hc', hin⟩ := Tiles.covers h.2.2 (Nat.le_of_not_lt hlt) h2
      exact ⟨c', List.mem_cons_of_mem _ hc', hin⟩

theorem Tiles.pairwise : ∀ {cs : List PfnCycle} {a b : Nat}, Tiles a b cs →
    cs.Pairwise fun c c' => c.endPfn ≤ c'.startPfn
  | [], _, _, _ => List.Pairwise.nil
  | _ :: _, _, _, h =>
    List.Pairwise.cons (fun c' hc' => (Tiles.mem h.2.2 c' hc').1) (Tiles.pairwise h.2.2)

theorem Tiles.isChain : ∀ {cs : List PfnCycle} {a b : Nat}, Tiles a b cs →
    cs.IsChain fun c c' => c.endPfn = c'.startPfn
  | [], _, _, _ => List.IsChain.nil
  | [_], _, _, _ => List.IsChain.singleton _
  | _ :: _ :: _, _, _, h => List.IsChain.cons_cons h.2.2.1.symm (Tiles.isChain h.2.2)

variable {pfnCyclic limit : Nat}

/-- The windows from `a` on, and how many rounds they take. -/
theorem cycleLoop_tiles (hp : 0 < pfnCyclic) : ∀ (n : Nat) {c : PfnCycle},
    limit - c.startPfn ≤ n → c.startPfn ≤ limit →
    c.endPfn = min (c.startPfn + pfnCyclic) limit →
    (c.startPfn < limit → 8 ∣ c.startPfn ∧ (8 ∣ pfnCyclic ∨ limit ≤ c.startPfn + pfnCyclic)) →
    ∃ cs, cycleLoop pfnCyclic limit (n + 1) c = some cs ∧ Tiles c.startPfn limit cs ∧
      ∀ c' ∈ cs, 8 ∣ c'.startPfn ∧ c'.endPfn - c'.startPfn ≤ pfnCyclic
  | n, c, hn, hle, he, h8 => by
    by_cases hend : limit ≤ c.startPfn
    · refine ⟨[], by rw [cycleLoop, if_pos hend], Nat.le_antisymm hle hend, by simp⟩
    · cases n with
      | zero => omega
      | succ n =>
        obtain ⟨hs8, hp8⟩ := h8 (by omega)
        have hnext : (updateCycle pfnCyclic limit c).startPfn = c.endPfn := rfl
        obtain ⟨cs, hcs, htiles, hall⟩ := cycleLoop_tiles hp n (c := updateCycle pfnCyclic limit c)
          (by omega) (by omega) rfl (by
            intro hlt
            -- the window was not cut, so it is not the last
            have hfull : c.endPfn = c.startPfn + pfnCyclic := by omega
            rcases hp8 with hp8 | hp8
            · rw [hnext, hfull]
              exact ⟨Nat.dvd_add hs8 hp8, .inl hp8⟩
            · omega)
        refine ⟨c :: cs, ?_, ⟨rfl, by omega, htiles⟩, ?_⟩
        · rw [cycleLoop, if_neg hend, hcs]
          rfl
        · intro c' hc'
          cases List.mem_cons.1 hc' with
          | inl heq =>
            subst heq
            exact ⟨hs8, by omega⟩
          | inr hmem => exact hall c' hmem

/-- What is asked of a run of `for_each_cycle(start, limit)`; `capacity` is the number of bits of a
buffer, if the bitmaps are in buffers. -/
structure VisitsOk (capacity : Option Nat) (start limit : Nat) (cs : List PfnCycle) : Prop where
  nonempty : ∀ c ∈ cs, c.startPfn < c.endPfn
  consecutive : cs.IsChain fun c c' => c.endPfn = c'.startPfn
  disjoint : cs.Pairwise fun c c' => c.endPfn ≤ c'.startPfn
  covers : ∀ pfn, start ≤ pfn → pfn < limit → ∃ c ∈ cs, c.startPfn ≤ pfn ∧ pfn < c.endPfn
  inside : ∀ c ∈ cs, c.endPfn ≤ limit
  aligned : ∀ c ∈ cs, 8 ∣ c.startPfn
  fits : ∀ n, capacity = some n → ∀ c ∈ cs, c.endPfn - c.startPfn ≤ n

theorem round_dvd (x y : Nat) : y ∣ round x y := Nat.dvd_mul_left y (x / y)

/-- The first window: it begins at a multiple of 8 and has at most `pfn_cyclic` page frames, also when
an ELF dump moves its start. -/
theorem firstCycle_spec (elf : Bool) {start : Nat} (hs : start < limit)
    (h8 : 8 ∣ pfnCyclic ∨ limit ≤ pfnCyclic) :
    (firstCycle pfnCyclic elf start limit).endPfn = min (round start pfnCyclic + pfnCyclic) limit ∧
      (firstCycle pfnCyclic elf start limit).startPfn ≤ start ∧
      round start pfnCyclic ≤ (firstCycle pfnCyclic elf start limit).startPfn ∧
      8 ∣ (firstCycle pfnCyclic elf start limit).startPfn := by
  have hr := round_le start pfnCyclic
  have hr8 := round_le start 8
  -- the start of the window is a multiple of 8 before and after it is moved
  have hd : 8 ∣ round start pfnCyclic := by
    rcases h8 with h8 | h8
    · exact Nat.dvd_trans h8 (round_dvd _ _)
    · rw [show round start pfnCyclic = 0 by
        unfold round
        rw [Nat.div_eq_of_lt (by omega), Nat.zero_mul]]
      exact Nat.dvd_zero 8
  have hmono : round start pfnCyclic ≤ round start 8 := by
    obtain ⟨k, hk⟩ := hd
    unfold round at hk hr ⊢
    omega
  unfold firstCycle
  dsimp only
  split
  · exact ⟨rfl, hr8, hmono, round_dvd _ _⟩
  · exact ⟨rfl, hr, Nat.le_refl _, hd⟩

/-- **A run of the loop.** -/
theorem runCycles_ok (hp : 0 < pfnCyclic) (elf : Bool) {start : Nat} (hs : start < limit)
    (h8 : 8 ∣ pfnCyclic ∨ limit ≤ pfnCyclic) {capacity : Option Nat}
    (hcap : ∀ n, capacity = some n → pfnCyclic ≤ n) :
    ∃ fuel cs, runCycles pfnCyclic elf start limit fuel = some cs ∧
      VisitsOk capacity start limit cs := by
  obtain ⟨hend, hstart, hround, hdvd⟩ := firstCycle_spec elf hs h8
  have hlt := lt_round_add start hp
  generalize hc : firstCycle pfnCyclic elf start limit = c at hend hstart hround hdvd
  have hnext : (updateCycle pfnCyclic limit c).startPfn = c.endPfn := rfl
  obtain ⟨cs, hcs, htiles, hall⟩ := cycleLoop_tiles hp limit
    (c := updateCycle pfnCyclic limit c) (by omega) (by omega) rfl (by
      intro hlim
      rw [hnext] at hlim ⊢
      have hfull : c.endPfn = round start pfnCyclic + pfnCyclic := by omega
      rcases h8 with h8 | h8
      · rw [hfull]
        exact ⟨Nat.dvd_add (Nat.dvd_trans h8 (round_dvd _ _)) h8, .inl h8⟩
      · omega)
  have hall' : ∀ c' ∈ c :: cs, 8 ∣ c'.startPfn ∧ c'.endPfn - c'.startPfn ≤ pfnCyclic := by
    intro c' hc'
    cases List.mem_cons.1 hc' with
    | inl heq =>
      subst heq
      exact ⟨hdvd, by omega⟩
    | inr hmem => exact hall c' hmem
  have ht : Tiles c.startPfn limit (c :: cs) := ⟨rfl, by omega, htiles⟩
  refine ⟨limit + 2, c :: cs, ?_, ?_⟩
  · unfold runCycles
    rw [if_neg (by omega), hc, cycleLoop, if_neg (by omega), hcs]
    rfl
  · exact {
      nonempty := fun c' hc' => (ht.mem c' hc').2.1
      consecutive := ht.isChain
      disjoint := ht.pairwise
      covers := fun pfn h1 h2 => ht.covers (by omega) h2
      inside := fun c' hc' => (ht.mem c' hc').2.2
      aligned := fun c' hc' => (hall' c' hc').1
      fits := fun n hn c' hc' => Nat.le_trans (hall' c' hc').2 (hcap n hn) }

/-! ## The plan -/

/-- **What is asked of the plan**: `initial` leaves a positive `pfn_cyclic`, and every run of the loop
below `max_mapnr`, in both output formats, visits what it should. -/
def PlanOk (i : PlanInput) : Prop :=
  ∃ p, initialPlan i = some p ∧ 0 < p.pfnCyclic ∧
    ∀ elf start limit, start < limit → limit ≤ i.maxMapnr →
      ∃ fuel cs, runCycles p.pfnCyclic elf start limit fuel = some cs ∧
        VisitsOk (if inMemory i p then some (8 * p.bufsizeCyclic) else none) start limit cs

/-- The number of processes that share the memory. -/
def PlanInput.shares (i : PlanInput) : Nat := if 1 < i.numDumpfile then i.numDumpfile else 1

/-- A plan that reaches the limit at once or has whole bytes. -/
theorem planOk_of_pos {i : PlanInput} {p : Plan} (hi : initialPlan i = some p)
    (hp : 0 < p.pfnCyclic) (h8 : 8 ∣ p.pfnCyclic ∨ i.maxMapnr ≤ p.pfnCyclic)
    (hcap : inMemory i p = true → p.pfnCyclic ≤ 8 * p.bufsizeCyclic) : PlanOk i := by
  refine ⟨p, hi, hp, fun elf start limit hs hl => runCycles_ok hp elf hs (h8.imp_right ?_) ?_⟩
  · intro h
    omega
  · intro n hn
    split at hn
    · rename_i hmem
      cases hn
      exact hcap hmem
    · cases hn

theorem dvd_buffer (n : Nat) : 8 ∣ n * 8 % 2 ^ 64 := by omega

theorem buffer_le (n : Nat) : n * 8 % 2 ^ 64 ≤ 8 * n := by
  have := Nat.mod_le (n * 8) (2 ^ 64)
  omega

/-- The threads take no more than what is above 4 MiB, also when their product wraps. -/
theorem u64sub_threads_pos {limit used : Nat} (hl : limit < 2 ^ 63 + 2 ^ 62)
    (hu : used + maximumSize ≤ limit) : 0 < u64sub limit (uint64 (int32 used)) := by
  unfold u64sub uint64 int32
  unfold maximumSize at hu
  omega

/-- The limit is zero only if there is no free memory, whatever the number of threads. -/
theorem limitSize_pos_iff {freeMemory numThreads : Nat} (hf : freeMemory < 2 ^ 64) :
    0 < (limitSize freeMemory numThreads).1 ↔ 2 ≤ freeMemory := by
  unfold limitSize
  dsimp only
  split
  · split
    · dsimp only
      omega
    · rename_i hmax
      split
      · have hused := Nat.mul_div_le (freeMemory * 6 / 10 - maximumSize) threadRegion
        unfold maximumSize at hmax
        refine iff_of_true (u64sub_threads_pos (by omega) ?_) (by omega)
        unfold maximumSize at hused ⊢
        omega
      · dsimp only
        omega
  · dsimp only
    omega

/-- The size that is calculated is zero if there is no free memory or fewer than four page frames for
each dump file. -/
theorem calculateCyclicBufferSize_spec {i : PlanInput} (hm : 1 ≤ i.maxMapnr)
    (hf : i.freeMemory < 2 ^ 64) :
    ∃ bufsize numThreads, calculateCyclicBufferSize i = some (bufsize, numThreads) ∧
      bufsize ≤ maximumSize ∧ (0 < bufsize ↔ 2 ≤ i.freeMemory ∧ 4 * i.shares ≤ i.maxMapnr) := by
  have hlimit := @limitSize_pos_iff i.freeMemory i.numThreads hf
  have hbitmap : 0 < (if 1 < i.numDumpfile then i.maxMapnr * 2 / 8 / i.numDumpfile
      else i.maxMapnr * 2 / 8) ↔ 4 * i.shares ≤ i.maxMapnr := by
    unfold PlanInput.shares
    split
    · rename_i hn
      rw [Nat.div_pos_iff]
      omega
    · omega
  unfold calculateCyclicBufferSize
  rw [if_neg (by omega), ← hlimit, ← hbitmap]
  cases limitSize i.freeMemory i.numThreads with
  | mk limit numThreads =>
    refine ⟨_, _, rfl, Nat.le_trans (Nat.min_le_left _ _) (Nat.min_le_right _ _), ?_⟩
    rw [lt_min_iff, lt_min_iff]
    exact ⟨fun h => ⟨h.1.1, h.2⟩, fun h => ⟨⟨h.1, by decide⟩, h.2⟩⟩

/-- When the buffer has a byte: the input is one with a file of bitmaps, or there are free memory and
page frames enough, or with `--cyclic-buffer` enough free memory for each dump file. -/
def HasBuffer (i : PlanInput) : Prop :=
  if i.fileBacked then True
  else if i.cyclicBuffer = 0 then 2 ≤ i.freeMemory ∧ 4 * i.shares ≤ i.maxMapnr
  else min (uint64 (i.cyclicBuffer * 2 ^ 10)) (i.freeMemory / i.shares) % 2 ^ 61 ≠ 0

theorem specifiedBufferSize_eq (i : PlanInput) :
    specifiedBufferSize i = min (uint64 (i.cyclicBuffer * 2 ^ 10)) (i.freeMemory / i.shares) := by
  unfold specifiedBufferSize PlanInput.shares
  dsimp only
  split
  · rfl
  · rw [Nat.div_one]

/-- A plan whose cycles have no page frame is no plan. -/
theorem planOk_iff_pos {i : PlanInput} {p : Plan} (hi : initialPlan i = some p)
    (h8 : 8 ∣ p.pfnCyclic ∨ i.maxMapnr ≤ p.pfnCyclic)
    (hcap : inMemory i p = true → p.pfnCyclic ≤ 8 * p.bufsizeCyclic) :
    PlanOk i ↔ 0 < p.pfnCyclic := by
  constructor
  · intro ⟨p', hi', hp, _⟩
    cases hi.symm.trans hi'
    exact hp
  · intro hp
    exact planOk_of_pos hi hp h8 hcap

/-- **The plan is right** exactly if the buffer has a byte. -/
theorem plan_ok_iff (i : PlanInput) (hm : 1 ≤ i.maxMapnr) (hf : i.freeMemory < 2 ^ 64) :
    PlanOk i ↔ HasBuffer i := by
  by_cases hfile : i.fileBacked = true
  · have hplan : initialPlan i = some {
        bufsizeCyclic := uint64 i.cyclicBuffer
        pfnCyclic := i.maxMapnr
        flagCyclic := false
        numThreads := i.numThreads } := by
      unfold initialPlan
      rw [if_pos hfile]
    unfold HasBuffer
    rw [if_pos hfile, planOk_iff_pos hplan (.inr (Nat.le_refl _)) (by simp [inMemory])]
    exact iff_true_intro hm
  · by_cases hv : i.cyclicBuffer = 0
    · obtain ⟨bufsize, numThreads, hcalc, hle, hpos⟩ := calculateCyclicBufferSize_spec hm hf
      have hplan : initialPlan i = some {
          bufsizeCyclic := bufsize
          pfnCyclic := bufsize * 8 % 2 ^ 64
          flagCyclic := if i.maxMapnr * 2 ≤ bufsize * 8 then false else i.flagCyclic
          numThreads } := by
        unfold initialPlan
        rw [if_neg hfile, if_pos hv, hcalc]
        rfl
      unfold HasBuffer
      rw [if_neg hfile, if_pos hv,
        planOk_iff_pos hplan (.inl (dvd_buffer bufsize)) (fun _ => buffer_le bufsize), ← hpos]
      unfold maximumSize at hle
      dsimp only
      omega
    · have hplan : initialPlan i = some {
          bufsizeCyclic := specifiedBufferSize i
          pfnCyclic := specifiedBufferSize i * 8 % 2 ^ 64
          flagCyclic := i.flagCyclic
          numThreads := i.numThreads } := by
        unfold initialPlan
        rw [if_neg hfile, if_neg hv]
      unfold HasBuffer
      rw [if_neg hfile, if_neg hv,
        planOk_iff_pos hplan (.inl (dvd_buffer _)) (fun _ => buffer_le _),
        ← specifiedBufferSize_eq]
      dsimp only
      omega

/-- 4 GiB of memory, 64 MiB of it free, two dump files. -/
theorem plan_ok_small :
    PlanOk { fileBacked := false, maxMapnr := 2 ^ 20, freeMemory := 2 ^ 26, numDumpfile := 2 } :=
  (plan_ok_iff _ (by decide) (by decide)).2 (by
    show 2 ≤ 2 ^ 26 ∧ 4 * 2 ≤ 2 ^ 20
    decide)

/-- No free memory: `pfn_cyclic` is zero. -/
theorem no_plan_without_memory :
    ¬ PlanOk { fileBacked := false, maxMapnr := 2 ^ 20, freeMemory := 0 } := by
  intro ⟨p, hi, hp, _⟩
  cases hi
  revert hp
  decide

end PfnCycle
