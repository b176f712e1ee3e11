import Mathlib.Algebra.Group.Nat.Defs
import Mathlib.Data.List.Basic

/-!
# Loops that may fail

`List.foldlM` in `Option`, for loops whose body can give up: a loop over windows is the loop over
their elements (`foldlM_flatMap`), and what every round keeps, the loop keeps (`foldlM_inv`).
`tryEach` is the loop that stops at the first round that fails and keeps the state it left.
-/

namespace Lib

variable {α β σ : Type}

theorem foldlM_flatMap (f : α → List β) (g : σ → β → Option σ) : ∀ (l : List α) (s : σ),
    l.foldlM (fun s a => (f a).foldlM g s) s = (l.flatMap f).foldlM g s
  | [], _ => rfl
  | a :: l, s => by
    rw [List.foldlM_cons, List.flatMap_cons, List.foldlM_append]
    congr 1
    funext s'
    exact foldlM_flatMap f g l s'

/-- A measure that no round lowers is not lowered by the loop. -/
theorem foldlM_mono {g : σ → β → Option σ} {m : σ → Nat}
    (hm : ∀ s b s', g s b = some s' → m s ≤ m s') :
    ∀ (l : List β) {s s' : σ}, l.foldlM g s = some s' → m s ≤ m s'
  | [], _, _, h => by
    cases h
    exact Nat.le_refl _
  | b :: l, s, s', h => by
    rw [List.foldlM_cons] at h
    obtain ⟨s1, h1, h2⟩ := Option.bind_eq_some_iff.1 h
    exact Nat.le_trans (hm s b s1 h1) (foldlM_mono hm l h2)

/-- What every round keeps, the loop keeps; a round may use that the measure stays below `N`. -/
theorem foldlM_inv {g : σ → β → Option σ} {m : σ → Nat} {P : σ → Prop} {N : Nat}
    (hm : ∀ s b s', g s b = some s' → m s ≤ m s')
    (hstep : ∀ s b s', g s b = some s' → m s' ≤ N → P s → P s') :
    ∀ (l : List β) {s s' : σ}, l.foldlM g s = some s' → m s' ≤ N → P s → P s'
  | [], _, _, h, _, hP => by
    cases h
    exact hP
  | b :: l, s, s', h, hN, hP => by
    rw [List.foldlM_cons] at h
    obtain ⟨s1, h1, h2⟩ := Option.bind_eq_some_iff.1 h
    have hle := foldlM_mono hm l h2
    exact foldlM_inv hm hstep l h2 hN (hstep s b s1 h1 (by omega) hP)

/-- The rounds in order, up to the first that fails. -/
def tryEach (f : β → σ → Bool × σ) : List β → σ → Bool × σ
  | [], s => (true, s)
  | b :: l, s =>
    match f b s with
    | (false, s) => (false, s)
    | (true, s) => tryEach f l s

theorem tryEach_append (f : β → σ → Bool × σ) : ∀ (l m : List β) (s : σ),
    tryEach f (l ++ m) s =
      match tryEach f l s with
      | (false, s) => (false, s)
      | (true, s) => tryEach f m s
  | [], _, _ => rfl
  | b :: l, m, s => by
    rw [List.cons_append, tryEach, tryEach]
    cases h : f b s with
    | mk ok s' =>
      cases ok with
      | false => rfl
      | true => exact tryEach_append f l m s'

/-- A loop that succeeds has no round that fails. -/
theorem tryEach_true {f : β → σ → Bool × σ} : ∀ {l : List β} {s s' : σ},
    tryEach f l s = (true, s') → ∀ b ∈ l, ∃ s1 s2, f b s1 = (true, s2)
  | [], _, _, _, _, hb => absurd hb (by simp)
  | a :: l, s, s', h, b, hb => by
    rw [tryEach] at h
    cases hf : f a s with
    | mk ok s1 =>
      rw [hf] at h
      cases ok with
      | false => cases h
      | true =>
        cases List.mem_cons.1 hb with
        | inl heq => exact ⟨s, s1, heq ▸ hf⟩
        | inr hmem => exact tryEach_true h b hmem

/-- A loop whose rounds succeed, with an invariant over the elements done. -/
theorem tryEach_ok {f : β → σ → Bool × σ} {P : List β → σ → Prop} :
    ∀ (l : List β) {pre : List β} {s : σ},
      (∀ m b r s, l = m ++ b :: r → P (pre ++ m) s →
        ∃ s', f b s = (true, s') ∧ P (pre ++ m ++ [b]) s') →
      P pre s → ∃ s', tryEach f l s = (true, s') ∧ P (pre ++ l) s'
  | [], pre, s, _, h => ⟨s, rfl, by rwa [List.append_nil]⟩
  | b :: l, pre, s, hstep, h => by
    obtain ⟨s1, h1, hP⟩ := hstep [] b l s rfl (by rwa [List.append_nil])
    rw [List.append_nil] at hP
    obtain ⟨s2, h2, hP2⟩ := @tryEach_ok f P l (pre ++ [b]) _ (fun m b' r s' e hp => by
      have := hstep (b :: m) b' r s' (by rw [e]; rfl) (by simpa using hp)
      simpa using this) hP
    exact ⟨s2, by rw [tryEach, h1]; exact h2, by simpa using hP2⟩

/-- A loop over `n` numbers that collects what each gives. -/
theorem mapM_range_eq_some {α : Type} {f : Nat → Option α} {n : Nat} {xs : List α} :
    (List.range n).mapM f = some xs ↔ xs.length = n ∧ ∀ j, j < n → f j = xs[j]? := by
  induction n generalizing xs with
  | zero =>
    rw [List.range_zero, List.mapM_nil]
    constructor
    · intro h
      cases h
      exact ⟨rfl, fun j h => absurd h (Nat.not_lt_zero j)⟩
    · rintro ⟨h, -⟩
      rw [List.length_eq_zero_iff.1 h]
      rfl
  | succ n ih =>
    rw [List.range_succ, List.mapM_append]
    simp only [List.mapM_cons, List.mapM_nil, Option.bind_eq_bind, Option.pure_def,
      Option.bind_eq_some_iff, Option.some_inj]
    constructor
    · rintro ⟨ys, hys, zs, ⟨y, hy, _, rfl, rfl⟩, rfl⟩
      obtain ⟨hlen, hget⟩ := ih.1 hys
      refine ⟨by rw [List.length_append, hlen]; rfl, fun j hj => ?_⟩
      rcases Nat.lt_succ_iff_lt_or_eq.1 hj with hlt | rfl
      · rw [hget j hlt, List.getElem?_append_left (by omega)]
      · rw [hy, List.getElem?_append_right (by omega), hlen, Nat.sub_self]
        rfl
    · rintro ⟨hlen, hget⟩
      obtain ⟨ys, y, rfl⟩ : ∃ ys y, xs = ys ++ [y] :=
        ⟨xs.dropLast, xs.getLast (List.ne_nil_of_length_eq_add_one hlen),
          (List.dropLast_append_getLast _).symm⟩
      have hys : ys.length = n := by simpa using hlen
      refine ⟨ys, ih.2 ⟨hys, fun j hj => ?_⟩, [y], ⟨y, ?_, [], rfl, rfl⟩, rfl⟩
      · rw [hget j (by omega), List.getElem?_append_left (by omega)]
      · rw [hget n (by omega), ← hys]
        simp

end Lib
