import Makedumpfile.Lib.Fold

/-!
# Cycles

`for_each_cycle(start, max, &cycle)`: the page frames of `[start, max)` in windows of `pfn_cyclic`
frames. The first window is rounded down to a multiple of the window size (in an ELF dump only to a
multiple of 8), so its part below `start` is skipped by the callers' loops. Whatever the window
size, these loops visit each frame of `[start, max)` once, in order (`forEachCycle_pages`).

The fields `exclude_pfn_start` and `exclude_pfn_end` of `struct cycle` are state of the exclusion
and are kept there.
-/

/-- `struct cycle`: the window `[start_pfn, end_pfn)`. -/
structure PfnCycle where
  startPfn : Nat
  endPfn : Nat
  deriving Repr, DecidableEq

namespace PfnCycle

/-- The macro `round`: down to a multiple of `y`. -/
def round (x y : Nat) : Nat := x / y * y

def firstCycle (pfnCyclic : Nat) (flagElfDumpfile : Bool) (start max : Nat) : PfnCycle :=
  let startPfn := round start pfnCyclic
  let endPfn := min (startPfn + pfnCyclic) max
  if flagElfDumpfile ∧ startPfn < start then { startPfn := round start 8, endPfn }
  else { startPfn, endPfn }

def updateCycle (pfnCyclic max : Nat) (c : PfnCycle) : PfnCycle :=
  { startPfn := c.endPfn, endPfn := min (c.endPfn + pfnCyclic) max }

/-- The windows from `c` on. With `pfn_cyclic > 0` a window that starts below `max` is not empty, and
the second test never decides. -/
def cyclesFrom (pfnCyclic max : Nat) (c : PfnCycle) : List PfnCycle :=
  if c.startPfn < max ∧ c.startPfn < c.endPfn then
    c :: cyclesFrom pfnCyclic max (updateCycle pfnCyclic max c)
  else []
termination_by max - c.startPfn
decreasing_by
  simp only [updateCycle]
  omega

def forEachCycle (pfnCyclic : Nat) (flagElfDumpfile : Bool) (start max : Nat) : List PfnCycle :=
  cyclesFrom pfnCyclic max (firstCycle pfnCyclic flagElfDumpfile start max)

/-- The frames a caller's loop visits in a window. -/
def pages (start : Nat) (c : PfnCycle) : List Nat :=
  List.range' (max start c.startPfn) (c.endPfn - max start c.startPfn)

variable {pfnCyclic start limit : Nat}

/-- A window that starts at the frame reached so far. -/
theorem cyclesFrom_pages (hp : 0 < pfnCyclic) (c : PfnCycle) (hs : start ≤ c.endPfn)
    (he : c.endPfn = min (c.startPfn + pfnCyclic) limit) (hle : start ≤ c.startPfn) :
    (cyclesFrom pfnCyclic limit c).flatMap (pages start) =
      List.range' c.startPfn (limit - c.startPfn) := by
  rw [cyclesFrom]
  split
  · rename_i h
    have ih := cyclesFrom_pages hp (updateCycle pfnCyclic limit c)
      (by simp only [updateCycle]; omega) rfl (by simp only [updateCycle]; omega)
    rw [List.flatMap_cons, ih]
    simp only [updateCycle, pages]
    rw [Nat.max_eq_right hle, show c.endPfn = c.startPfn + (c.endPfn - c.startPfn) by omega,
      show c.startPfn + (c.endPfn - c.startPfn) - c.startPfn = c.endPfn - c.startPfn by omega,
      List.range'_append_1]
    congr 1
    omega
  · rw [show limit - c.startPfn = 0 by omega]
    rfl
termination_by limit - c.startPfn
decreasing_by
  simp only [updateCycle]
  omega

theorem round_le (x y : Nat) : round x y ≤ x := Nat.div_mul_le_self x y

theorem lt_round_add (x : Nat) {y : Nat} (h : 0 < y) : x < round x y + y := Nat.lt_div_mul_add h

/-- **The windows visit every frame** of `[start, limit)` once, in order. -/
theorem forEachCycle_pages (hp : 0 < pfnCyclic) (elf : Bool) (start limit : Nat) :
    (forEachCycle pfnCyclic elf start limit).flatMap (pages start) =
      List.range' start (limit - start) := by
  have hr := round_le start pfnCyclic
  have hr' := lt_round_add start hp
  have hr8 := round_le start 8
  -- the first window reaches from `start` or below to the end of its block
  obtain ⟨a, ha, hfirst⟩ : ∃ a, a ≤ start ∧ firstCycle pfnCyclic elf start limit =
      { startPfn := a, endPfn := min (round start pfnCyclic + pfnCyclic) limit } := by
    unfold firstCycle
    dsimp only
    split
    · exact ⟨_, hr8, rfl⟩
    · exact ⟨_, hr, rfl⟩
  unfold forEachCycle
  rw [hfirst, cyclesFrom]
  split
  · rename_i h
    rw [List.flatMap_cons]
    by_cases hlim : start < limit
    · rw [cyclesFrom_pages hp _ (by simp only [updateCycle]; omega) rfl
        (by simp only [updateCycle]; omega)]
      simp only [updateCycle, pages]
      rw [Nat.max_eq_left ha]
      generalize he : min (round start pfnCyclic + pfnCyclic) limit = e
      obtain ⟨n, rfl⟩ := Nat.exists_eq_add_of_le (show start ≤ e by omega)
      rw [Nat.add_sub_cancel_left, List.range'_append_1]
      congr 1
      omega
    · have hend : min (round start pfnCyclic + pfnCyclic) limit = limit := by omega
      rw [hend, cyclesFrom, if_neg (by simp only [updateCycle]; omega), List.flatMap_nil,
        List.append_nil, pages]
      rw [show limit - max start a = 0 by omega, show limit - start = 0 by omega]
      rfl
  · rename_i h
    simp only [List.flatMap_nil]
    dsimp only at h
    rw [show limit - start = 0 by omega]
    rfl

/-- **A loop over the windows**: an invariant of the frame reached, kept by each window. -/
theorem tryEach_cyclesFrom {σ : Type} {f : PfnCycle → σ → Bool × σ} {P : Nat → σ → Prop}
    (hp : 0 < pfnCyclic)
    (hstep : ∀ a s, a < limit → pfnCyclic ∣ a → P a s →
      ∃ s', f ⟨a, min (a + pfnCyclic) limit⟩ s = (true, s') ∧ P (min (a + pfnCyclic) limit) s')
    (c : PfnCycle) (he : c.endPfn = min (c.startPfn + pfnCyclic) limit)
    (hd : c.startPfn < limit → pfnCyclic ∣ c.startPfn) (hle : c.startPfn ≤ limit) {s : σ}
    (h : P c.startPfn s) :
    ∃ s', Lib.tryEach f (cyclesFrom pfnCyclic limit c) s = (true, s') ∧ P limit s' := by
  rw [cyclesFrom]
  split
  · rename_i hc
    obtain ⟨s1, h1, hP⟩ := hstep c.startPfn s hc.1 (hd hc.1) h
    rw [← he] at h1 hP
    obtain ⟨s2, h2, hP2⟩ := tryEach_cyclesFrom hp hstep (updateCycle pfnCyclic limit c) rfl
      (by
        intro hlt
        simp only [updateCycle] at hlt ⊢
        rw [show c.endPfn = c.startPfn + pfnCyclic by omega]
        exact Nat.dvd_add (hd hc.1) (Nat.dvd_refl _))
      (by simp only [updateCycle]; omega) hP
    refine ⟨s2, ?_, hP2⟩
    rw [Lib.tryEach, show f c s = (true, s1) from h1]
    exact h2
  · rw [show c.startPfn = limit by omega] at h
    exact ⟨s, rfl, h⟩
termination_by limit - c.startPfn
decreasing_by
  simp only [updateCycle]
  omega

theorem tryEach_forEachCycle {σ : Type} {f : PfnCycle → σ → Bool × σ} {P : Nat → σ → Prop}
    (hp : 0 < pfnCyclic)
    (hstep : ∀ a s, a < limit → pfnCyclic ∣ a → P a s →
      ∃ s', f ⟨a, min (a + pfnCyclic) limit⟩ s = (true, s') ∧ P (min (a + pfnCyclic) limit) s')
    {s : σ} (h : P 0 s) :
    ∃ s', Lib.tryEach f (forEachCycle pfnCyclic false 0 limit) s = (true, s') ∧ P limit s' := by
  have hfirst : firstCycle pfnCyclic false 0 limit = ⟨0, min (0 + pfnCyclic) limit⟩ := by
    simp [firstCycle, round]
  unfold forEachCycle
  rw [hfirst]
  exact tryEach_cyclesFrom hp hstep _ rfl (fun _ => Nat.dvd_zero _) (Nat.zero_le _) h

/-- A loop over the windows that succeeds: an invariant of the frame reached, kept by each window that
succeeds. -/
theorem cyclesFrom_true {σ : Type} {f : PfnCycle → σ → Bool × σ} {P : Nat → σ → Prop}
    (hp : 0 < pfnCyclic)
    (hstep : ∀ a s s', a < limit → pfnCyclic ∣ a → P a s →
      f ⟨a, min (a + pfnCyclic) limit⟩ s = (true, s') → P (min (a + pfnCyclic) limit) s')
    (c : PfnCycle) (he : c.endPfn = min (c.startPfn + pfnCyclic) limit)
    (hd : c.startPfn < limit → pfnCyclic ∣ c.startPfn) (hle : c.startPfn ≤ limit) {s s' : σ}
    (h : P c.startPfn s) (hs : Lib.tryEach f (cyclesFrom pfnCyclic limit c) s = (true, s')) :
    P limit s' := by
  rw [cyclesFrom] at hs
  split at hs
  · rename_i hc
    rw [Lib.tryEach] at hs
    cases h1 : f c s with
    | mk ok s1 =>
      rw [h1] at hs
      cases ok with
      | false => cases hs
      | true =>
        have hP := hstep c.startPfn s s1 hc.1 (hd hc.1) h (by rw [← he]; exact h1)
        rw [← he] at hP
        refine cyclesFrom_true hp hstep (updateCycle pfnCyclic limit c) rfl ?_ ?_ hP hs
        · intro hlt
          simp only [updateCycle] at hlt ⊢
          rw [show c.endPfn = c.startPfn + pfnCyclic by omega]
          exact Nat.dvd_add (hd hc.1) (Nat.dvd_refl _)
        · simp only [updateCycle]
          omega
  · rw [show c.startPfn = limit by omega] at h
    cases hs
    exact h
termination_by limit - c.startPfn
decreasing_by
  simp only [updateCycle]
  omega

theorem forEachCycle_true {σ : Type} {f : PfnCycle → σ → Bool × σ} {P : Nat → σ → Prop}
    (hp : 0 < pfnCyclic)
    (hstep : ∀ a s s', a < limit → pfnCyclic ∣ a → P a s →
      f ⟨a, min (a + pfnCyclic) limit⟩ s = (true, s') → P (min (a + pfnCyclic) limit) s')
    {s s' : σ} (h : P 0 s)
    (hs : Lib.tryEach f (forEachCycle pfnCyclic false 0 limit) s = (true, s')) : P limit s' := by
  have hfirst : firstCycle pfnCyclic false 0 limit = ⟨0, min (0 + pfnCyclic) limit⟩ := by
    simp [firstCycle, round]
  unfold forEachCycle at hs
  rw [hfirst] at hs
  exact cyclesFrom_true hp hstep _ rfl (fun _ => Nat.dvd_zero _) (Nat.zero_le _) h hs

end PfnCycle
