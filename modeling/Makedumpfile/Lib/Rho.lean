import Mathlib.Data.Fintype.Pigeonhole
import Mathlib.Data.Nat.ModEq
import Mathlib.Data.Set.Finite.Basic
import Mathlib.Logic.Function.Iterate

/-!
# Orbits that run into a cycle

The orbit of a point under a function that comes back to a point is shaped like a rho: a tail of `μ`
points that are visited once, then a cycle of `l` points (`Rho`). Every orbit in a finite type is one
(`exists_rho_of_finite`), and two places of it hold the same point exactly when both are in the cycle
and their distance is a multiple of its length (`Rho.iterate_eq_iff`).

The trail of a partial function (`trail`) may come to an end instead. In a finite set it does exactly
when no point comes back (`trail_ends_iff`).
-/

namespace Lib

variable {α : Type*} {f : α → α} {x : α} {μ l i j : Nat}

/-- The orbit of `x` has a tail of `μ` points and a cycle of `l` points. -/
structure Rho (f : α → α) (x : α) (μ l : Nat) : Prop where
  pos : 0 < l
  period : f^[μ + l] x = f^[μ] x
  inj : ∀ i j, i < μ + l → j < μ + l → f^[i] x = f^[j] x → i = j

/-- The place below `μ + l` that holds the same point. -/
def foldPlace (μ l i : Nat) : Nat := if i < μ then i else μ + (i - μ) % l

theorem Rho.foldPlace_lt (h : Rho f x μ l) (i : Nat) : foldPlace μ l i < μ + l := by
  have := Nat.mod_lt (i - μ) h.pos
  unfold foldPlace
  split <;> omega

/-- Whole rounds from a place in the cycle lead back. -/
theorem Rho.iterate_rounds (h : Rho f x μ l) (r q : Nat) : f^[μ + r + l * q] x = f^[μ + r] x := by
  induction q with
  | zero => rfl
  | succ q ih =>
    rw [Nat.mul_succ, show μ + r + (l * q + l) = r + l * q + (μ + l) by omega,
      Function.iterate_add_apply, h.period, ← Function.iterate_add_apply,
      show r + l * q + μ = μ + r + l * q by omega, ih]

theorem Rho.iterate_foldPlace (h : Rho f x μ l) (i : Nat) : f^[foldPlace μ l i] x = f^[i] x := by
  unfold foldPlace
  split
  · rfl
  · have hi : μ + (i - μ) % l + l * ((i - μ) / l) = i := by
      have := Nat.mod_add_div (i - μ) l
      omega
    rw [← h.iterate_rounds ((i - μ) % l) ((i - μ) / l), hi]

theorem foldPlace_eq_iff (hij : i ≤ j) :
    foldPlace μ l i = foldPlace μ l j ↔ i = j ∨ (μ ≤ i ∧ l ∣ j - i) := by
  unfold foldPlace
  by_cases hi : i < μ
  · rw [if_pos hi]
    split <;> omega
  · rw [if_neg hi, if_neg (by omega), Nat.add_left_cancel_iff]
    have he : j - μ - (i - μ) = j - i := by omega
    constructor
    · intro h
      exact .inr ⟨by omega, he ▸ (Nat.modEq_iff_dvd' (by omega)).1 h⟩
    · rintro (rfl | ⟨-, h⟩)
      · rfl
      · exact (Nat.modEq_iff_dvd' (by omega)).2 (he.symm ▸ h)

/-- **When two places hold the same point.** -/
theorem Rho.iterate_eq_iff (h : Rho f x μ l) (hij : i ≤ j) :
    f^[i] x = f^[j] x ↔ i = j ∨ (μ ≤ i ∧ l ∣ j - i) := by
  rw [← foldPlace_eq_iff hij, ← h.iterate_foldPlace i, ← h.iterate_foldPlace j]
  constructor
  · exact h.inj _ _ (h.foldPlace_lt i) (h.foldPlace_lt j)
  · intro he
    rw [he]

/-- An orbit that comes back has a tail and a cycle. -/
theorem exists_rho (hij : i < j) (h : f^[i] x = f^[j] x) : ∃ μ l, Rho f x μ l ∧ μ + l ≤ j := by
  classical
  have hex : ∃ j, ∃ i < j, f^[i] x = f^[j] x := ⟨j, i, hij, h⟩
  -- the first place that holds a point seen before ends the first round of the cycle
  obtain ⟨μ, hμ, he⟩ := Nat.find_spec hex
  have hmin : ∀ a b, a < b → b < Nat.find hex → f^[a] x ≠ f^[b] x := by
    intro a b hab hb hc
    exact Nat.find_min hex hb ⟨a, hab, hc⟩
  have hsum : μ + (Nat.find hex - μ) = Nat.find hex := by omega
  refine ⟨μ, Nat.find hex - μ, ⟨by omega, by rw [hsum, ← he], ?_⟩, ?_⟩
  · intro a b ha hb hab
    rw [hsum] at ha hb
    rcases Nat.lt_trichotomy a b with hlt | heq | hgt
    · exact absurd hab (hmin a b hlt hb)
    · exact heq
    · exact absurd hab.symm (hmin b a hgt ha)
  · rw [hsum]
    exact Nat.find_min' hex ⟨i, hij, h⟩

theorem exists_rho_of_finite [Finite α] (f : α → α) (x : α) : ∃ μ l, Rho f x μ l := by
  obtain ⟨i, j, hne, he⟩ := Finite.exists_ne_map_eq_of_infinite fun n => f^[n] x
  rcases Nat.lt_or_gt_of_ne hne with h | h
  · obtain ⟨μ, l, hr, -⟩ := exists_rho h he
    exact ⟨μ, l, hr⟩
  · obtain ⟨μ, l, hr, -⟩ := exists_rho h he.symm
    exact ⟨μ, l, hr⟩

/-! ## Partial functions -/

/-- The points that a partial function leads to, as long as it leads on. -/
def trail (next : α → Option α) (x : α) : Nat → Option α
  | 0 => some x
  | n + 1 => (trail next x n).bind next

variable {next : α → Option α}

/-- The trail of a point goes on with the trail of the next one. -/
theorem trail_cons {y : α} (h : next x = some y) (n : Nat) :
    trail next x (n + 1) = trail next y n := by
  induction n with
  | zero => exact h
  | succ n ih =>
    rw [trail, ih, trail]

theorem trail_stop (h : next x = none) (n : Nat) : trail next x (n + 1) = none := by
  induction n with
  | zero => exact h
  | succ n ih => rw [trail, ih, Option.bind_none]

section

variable {P : α → Prop} {y : α}

/-- What holds of all points of a trail holds of the first one and of the trail of the next. -/
theorem forall_trail_cons (h : next x = some y) :
    (∀ n z, trail next x n = some z → P z) ↔ P x ∧ ∀ n z, trail next y n = some z → P z := by
  constructor
  · intro hall
    exact ⟨hall 0 x rfl, fun n z hz => hall (n + 1) z (trail_cons h n ▸ hz)⟩
  · rintro ⟨hx, hall⟩ n z hz
    cases n with
    | zero => exact Option.some.inj hz ▸ hx
    | succ n => exact hall n z (trail_cons h n ▸ hz)

theorem forall_trail_stop (h : next x = none) :
    (∀ n z, trail next x n = some z → P z) ↔ P x := by
  constructor
  · intro hall
    exact hall 0 x rfl
  · intro hx n z hz
    cases n with
    | zero => exact Option.some.inj hz ▸ hx
    | succ n =>
      rw [trail_stop h n] at hz
      cases hz

theorem trail_ends_cons (h : next x = some y) :
    (∃ n, trail next x n = none) ↔ ∃ n, trail next y n = none := by
  constructor
  · rintro ⟨n, hn⟩
    cases n with
    | zero => cases hn
    | succ n => exact ⟨n, trail_cons h n ▸ hn⟩
  · rintro ⟨n, hn⟩
    exact ⟨n + 1, (trail_cons h n).trans hn⟩

end

theorem trail_none_of_le {n m : Nat} (h : trail next x n = none) (hm : n ≤ m) :
    trail next x m = none := by
  induction m, hm using Nat.le_induction with
  | base => exact h
  | succ m _ ih => simp [trail, ih]

/-- From equal points the trail goes on in the same way. -/
theorem trail_add_eq (h : trail next x i = trail next x j) (n : Nat) :
    trail next x (i + n) = trail next x (j + n) := by
  induction n with
  | zero => exact h
  | succ n ih =>
    show (trail next x (i + n)).bind next = (trail next x (j + n)).bind next
    rw [ih]

/-- **A trail in a finite set ends exactly when it does not come back to a point.** -/
theorem trail_ends_iff {s : Set α} (hs : s.Finite) (hmem : ∀ n y, trail next x n = some y → y ∈ s) :
    (∃ n, trail next x n = none) ↔
      ∀ i j, i < j → trail next x i ≠ none → trail next x i ≠ trail next x j := by
  constructor
  · rintro ⟨n, hn⟩ i j hij hi he
    -- after every `j - i` points the trail is where it was, so it is never over
    have hround : ∀ r, trail next x (i + (j - i) * r) = trail next x i := by
      intro r
      induction r with
      | zero => rfl
      | succ r ih =>
        rw [Nat.mul_succ, Nat.add_comm ((j - i) * r), ← Nat.add_assoc,
          show i + (j - i) = j by omega, ← trail_add_eq he, ih]
    have hle : n ≤ i + (j - i) * n :=
      Nat.le_add_left_of_le (Nat.le_mul_of_pos_left n (Nat.sub_pos_of_lt hij))
    exact hi (hround n ▸ trail_none_of_le hn hle)
  · intro h
    by_contra hend
    push Not at hend
    have hsome : ∀ n, ∃ y, trail next x n = some y := fun n => Option.ne_none_iff_exists'.1 (hend n)
    choose f hf using hsome
    refine Set.infinite_of_injective_forall_mem (f := f) ?_ (fun n => hmem n _ (hf n)) hs
    intro i j he
    have heq : trail next x i = trail next x j := by rw [hf i, hf j, he]
    rcases Nat.lt_trichotomy i j with hlt | hij | hgt
    · exact absurd heq (h i j hlt (hend i))
    · exact hij
    · exact absurd heq.symm (h j i hgt (hend j))

end Lib
