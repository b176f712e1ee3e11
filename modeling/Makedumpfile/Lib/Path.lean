import Mathlib.Order.Iterate
import Mathlib.Order.Monotone.Basic

/-!
# Scans that jump

A scan from `a` that moves on from `p` by `len p > 0` visits the points of a path, and the intervals
`[p, p + len p)` of these points are a partition of what is behind `a` (`OnPath.exists_covering`,
`OnPath.unique`). So whether a place is in an interval of some kind is decided by the one interval it
is in (`covered_iff`).
-/

namespace Lib

variable {len : Nat → Nat} {a p q x : Nat}

/-- `p` is visited by the scan from `a`. -/
def OnPath (len : Nat → Nat) (a p : Nat) : Prop := ∃ n, (fun p => p + len p)^[n] a = p

theorem OnPath.refl (len : Nat → Nat) (a : Nat) : OnPath len a a := ⟨0, rfl⟩

theorem OnPath.next (h : OnPath len a p) : OnPath len a (p + len p) := by
  obtain ⟨n, hn⟩ := h
  exact ⟨n + 1, by rw [Function.iterate_succ_apply', hn]⟩

/-- The path is increasing. -/
theorem path_strictMono (hlen : ∀ p, 0 < len p) (a : Nat) :
    StrictMono fun n => (fun p => p + len p)^[n] a :=
  strictMono_nat_of_lt_succ fun n => by
    rw [Function.iterate_succ_apply']
    exact Nat.lt_add_of_pos_right (hlen _)

/-- A point ends its interval before the next point. -/
theorem OnPath.le_of_lt (hlen : ∀ p, 0 < len p) (hp : OnPath len a p) (hq : OnPath len a q)
    (h : p < q) : p + len p ≤ q := by
  obtain ⟨i, rfl⟩ := hp
  obtain ⟨j, rfl⟩ := hq
  have hij : i < j := (path_strictMono hlen a).lt_iff_lt.1 h
  have hle := (path_strictMono hlen a).monotone (Nat.succ_le_of_lt hij)
  rwa [Function.iterate_succ_apply'] at hle

theorem OnPath.start_le (hlen : ∀ p, 0 < len p) (h : OnPath len a p) : a ≤ p := by
  obtain ⟨n, rfl⟩ := h
  exact (path_strictMono hlen a).monotone (Nat.zero_le n)

/-- The intervals do not overlap. -/
theorem OnPath.unique (hlen : ∀ p, 0 < len p) (hp : OnPath len a p) (hq : OnPath len a q)
    (h1 : p ≤ x) (h2 : x < p + len p) (h3 : q ≤ x) (h4 : x < q + len q) : p = q := by
  rcases Nat.lt_trichotomy p q with h | h | h
  · have := hp.le_of_lt hlen hq h
    omega
  · exact h
  · have := hq.le_of_lt hlen hp h
    omega

/-- The intervals reach everywhere. -/
theorem OnPath.exists_covering (hlen : ∀ p, 0 < len p) (h : a ≤ x) :
    ∃ p, OnPath len a p ∧ p ≤ x ∧ x < p + len p := by
  induction x, h using Nat.le_induction with
  | base => exact ⟨a, .refl _ _, Nat.le_refl _, Nat.lt_add_of_pos_right (hlen a)⟩
  | succ x h ih =>
    obtain ⟨p, hp, h1, h2⟩ := ih
    by_cases hx : x + 1 < p + len p
    · exact ⟨p, hp, by omega, hx⟩
    · have he : p + len p = x + 1 := by omega
      refine ⟨p + len p, hp.next, by omega, ?_⟩
      have := hlen (p + len p)
      omega

/-- `x` is in the interval of a point of the kind `sel`. -/
def Covered (len : Nat → Nat) (sel : Nat → Prop) (a x : Nat) : Prop :=
  ∃ p, OnPath len a p ∧ p ≤ x ∧ x < p + len p ∧ sel p

theorem covered_iff (hlen : ∀ p, 0 < len p) {sel : Nat → Prop} (hp : OnPath len a p) (h1 : p ≤ x)
    (h2 : x < p + len p) : Covered len sel a x ↔ sel p := by
  constructor
  · rintro ⟨q, hq, h3, h4, hs⟩
    rwa [hp.unique hlen hq h1 h2 h3 h4]
  · intro hs
    exact ⟨p, hp, h1, h2, hs⟩

/-- With longer intervals, nested in one another, more is covered. -/
theorem Covered.mono {len₁ len₂ : Nat → Nat} (hlen₁ : ∀ p, 0 < len₁ p) (hlen₂ : ∀ p, 0 < len₂ p)
    {sel₁ sel₂ : Nat → Prop}
    (hsel : ∀ p, a ≤ p → p ≤ x → sel₁ p → sel₂ p ∧ len₁ p ≤ len₂ p)
    (hone : ∀ p, a ≤ p → p ≤ x → ¬ sel₂ p → len₂ p = 1)
    (hnest : ∀ p q, a ≤ p → p < q → q ≤ x → sel₂ p → sel₂ q → q < p + len₂ p →
      q + len₂ q ≤ p + len₂ p)
    (h : Covered len₁ sel₁ a x) : Covered len₂ sel₂ a x := by
  obtain ⟨p, hp, h1, h2, hs⟩ := h
  have ha := hp.start_le hlen₁
  obtain ⟨hs₂, hle⟩ := hsel p ha h1 hs
  obtain ⟨r, hr, h3, h4⟩ := OnPath.exists_covering hlen₂ (Nat.le_trans ha h1)
  have har := hr.start_le hlen₂
  refine ⟨r, hr, h3, h4, ?_⟩
  rcases Nat.lt_trichotomy r p with h | h | h
  · -- an interval that reaches over `p` is longer than 1
    by_contra hno
    have := hone r har h3 hno
    omega
  · exact h ▸ hs₂
  · -- the interval with `p` would have ended before `r`
    exfalso
    obtain ⟨s, hs, h5, h6⟩ := OnPath.exists_covering hlen₂ ha
    have has := hs.start_le hlen₂
    have hend := hs.le_of_lt hlen₂ hr (Nat.lt_of_le_of_lt h5 h)
    rcases Nat.lt_or_eq_of_le h5 with hlt | rfl
    · have hsel_s : sel₂ s := by
        by_contra hno
        have := hone s has (by omega) hno
        omega
      have := hnest s p has hlt h1 hsel_s hs₂ h6
      omega
    · omega

/-- `z` is the first point of the path that is not before `x`. -/
structure FirstFrom (len : Nat → Nat) (a x z : Nat) : Prop where
  onPath : OnPath len a z
  le : x ≤ z
  last : x < z → ∃ q, OnPath len a q ∧ q < x ∧ q + len q = z

theorem FirstFrom.unique (hlen : ∀ p, 0 < len p) {z z' : Nat} (h : FirstFrom len a x z)
    (h' : FirstFrom len a x z') : z = z' := by
  have key : ∀ {z z' : Nat}, FirstFrom len a x z → FirstFrom len a x z' → ¬ z < z' := by
    intro z z' h h' hlt
    obtain ⟨q, hq, hqx, he⟩ := h'.last (Nat.lt_of_le_of_lt h.le hlt)
    have := hq.le_of_lt hlen h.onPath (Nat.lt_of_lt_of_le hqx h.le)
    omega
  have h1 := key h h'
  have h2 := key h' h
  omega

theorem FirstFrom.start_lt (hlen : ∀ p, 0 < len p) {z : Nat} (h : FirstFrom len a x z)
    (hlt : x < z) : a < x := by
  obtain ⟨q, hq, hqx, -⟩ := h.last hlt
  exact Nat.lt_of_le_of_lt (hq.start_le hlen) hqx

theorem exists_firstFrom (hlen : ∀ p, 0 < len p) (h : a ≤ x) : ∃ z, FirstFrom len a x z := by
  obtain ⟨p, hp, h1, h2⟩ := OnPath.exists_covering hlen h
  by_cases he : p = x
  · exact ⟨x, he ▸ hp, Nat.le_refl _, fun hc => absurd hc (Nat.lt_irrefl _)⟩
  · exact ⟨p + len p, hp.next, Nat.le_of_lt h2, fun _ => ⟨p, hp, by omega, rfl⟩⟩

/-- A path that does not jump over `b` does not pass it. -/
theorem FirstFrom.le_end (hlen : ∀ p, 0 < len p) {b : Nat}
    (hin : ∀ q, a ≤ q → q < b → q + len q ≤ b) {z : Nat} (h : FirstFrom len a x z) (hx : x ≤ b) :
    z ≤ b := by
  by_cases hlt : x < z
  · obtain ⟨q, hq, hqx, he⟩ := h.last hlt
    have := hin q (hq.start_le hlen) (by omega)
    omega
  · omega

end Lib
