import Mathlib.Algebra.Group.Nat.Defs
import Mathlib.Logic.Function.Basic
import Mathlib.Data.Nat.ModEq

/-!
# Rings of cells

A queue in a ring of `n` cells: from the cell `c` on, the cells hold the elements of a list, and the
others are free. An element is pushed behind the last one, changed in place, and taken off at the front
by freeing its cell and going to the next one.
-/

namespace Lib

variable {α β : Type} {n c : Nat} {Holds : α → β → Prop} {Free : α → Prop} {f : Nat → α} {a b : β}
  {l : List β} {x : α}

/-- Different elements are in different cells. -/
theorem ring_inj {j k : Nat} (hj : j < n) (hk : k < n) (h : (c + j) % n = (c + k) % n) : j = k := by
  have := Nat.ModEq.add_left_cancel' c h
  rwa [Nat.ModEq, Nat.mod_eq_of_lt hj, Nat.mod_eq_of_lt hk] at this

/-- The cells from `c` on hold `l`, and the others are free. -/
structure Ring (n : Nat) (Holds : α → β → Prop) (Free : α → Prop) (f : Nat → α) (c : Nat)
    (l : List β) : Prop where
  start : c < n
  length_le : l.length ≤ n
  holds : ∀ k a, l[k]? = some a → Holds (f ((c + k) % n)) a
  free : ∀ k, l.length ≤ k → k < n → Free (f ((c + k) % n))

theorem Ring.holds_head (h : Ring n Holds Free f c (a :: l)) : Holds (f c) a := by
  have := h.holds 0 a rfl
  rwa [Nat.add_zero, Nat.mod_eq_of_lt h.start] at this

theorem Ring.free_start (h : Ring n Holds Free f c []) : Free (f c) := by
  have := h.free 0 (Nat.le_refl 0) (Nat.zero_lt_of_lt h.start)
  rwa [Nat.add_zero, Nat.mod_eq_of_lt h.start] at this

theorem Ring.holds_last (h : Ring n Holds Free f c (l ++ [a])) :
    Holds (f ((c + l.length) % n)) a :=
  h.holds l.length a (by simp)

theorem Ring.length_lt (h : Ring n Holds Free f c (l ++ [a])) : l.length < n := by
  have := h.length_le
  rw [List.length_append, List.length_singleton] at this
  omega

/-- A free cell is changed and stays free. -/
theorem Ring.setFree (h : Ring n Holds Free f c l) (hlt : l.length < n) (hx : Free x) :
    Ring n Holds Free (Function.update f ((c + l.length) % n) x) c l := by
  refine ⟨h.start, h.length_le, fun k a hk => ?_, fun k h1 h2 => ?_⟩
  · have hkl : k < l.length := (List.getElem?_eq_some_iff.mp hk).1
    rw [Function.update_of_ne]
    · exact h.holds k a hk
    · intro he
      have := ring_inj (by omega) hlt he
      omega
  · by_cases hk : k = l.length
    · rw [hk, Function.update_self]
      exact hx
    · rw [Function.update_of_ne]
      · exact h.free k h1 h2
      · exact fun he => hk (ring_inj h2 hlt he)

theorem Ring.push (h : Ring n Holds Free f c l) (hlt : l.length < n) (hx : Holds x a) :
    Ring n Holds Free (Function.update f ((c + l.length) % n) x) c (l ++ [a]) := by
  refine ⟨h.start, by rw [List.length_append]; exact hlt, fun k b hk => ?_, fun k h1 h2 => ?_⟩
  · rcases Nat.lt_trichotomy k l.length with hkl | rfl | hkl
    · rw [List.getElem?_append_left hkl] at hk
      rw [Function.update_of_ne]
      · exact h.holds k b hk
      · intro he
        have := ring_inj (by omega) hlt he
        omega
    · rw [List.getElem?_concat_length, Option.some.injEq] at hk
      rw [Function.update_self]
      exact hk ▸ hx
    · rw [List.getElem?_eq_none (by rw [List.length_append]; exact hkl)] at hk
      cases hk
  · rw [List.length_append, List.length_singleton] at h1
    rw [Function.update_of_ne]
    · exact h.free k (by omega) h2
    · intro he
      have := ring_inj h2 hlt he
      omega

/-- The last element is changed. -/
theorem Ring.setLast (h : Ring n Holds Free f c (l ++ [a])) (hx : Holds x b) :
    Ring n Holds Free (Function.update f ((c + l.length) % n) x) c (l ++ [b]) := by
  have hlt := h.length_lt
  refine ⟨h.start, by rw [List.length_append]; exact hlt, fun k d hk => ?_, fun k h1 h2 => ?_⟩
  · rcases Nat.lt_trichotomy k l.length with hkl | rfl | hkl
    · rw [Function.update_of_ne]
      · refine h.holds k d ?_
        rw [List.getElem?_append_left hkl] at hk ⊢
        exact hk
      · intro he
        have := ring_inj (by omega) hlt he
        omega
    · rw [List.getElem?_concat_length, Option.some.injEq] at hk
      rw [Function.update_self]
      exact hk ▸ hx
    · rw [List.getElem?_eq_none (by rw [List.length_append]; exact hkl)] at hk
      cases hk
  · rw [List.length_append, List.length_singleton] at h1
    rw [Function.update_of_ne]
    · exact h.free k (by rw [List.length_append]; exact h1) h2
    · intro he
      have := ring_inj h2 hlt he
      omega

/-- The first element is taken off. -/
theorem Ring.pop (h : Ring n Holds Free f c (a :: l)) (hx : Free x) :
    Ring n Holds Free (Function.update f c x) ((c + 1) % n) l := by
  have hn : 0 < n := Nat.zero_lt_of_lt h.start
  have hlen : l.length < n := h.length_le
  have hcell : ∀ k, ((c + 1) % n + k) % n = (c + (k + 1)) % n := fun k => by
    rw [Nat.mod_add_mod, Nat.add_assoc, Nat.add_comm 1 k]
  have hc : c = (c + 0) % n := by rw [Nat.add_zero, Nat.mod_eq_of_lt h.start]
  refine ⟨Nat.mod_lt _ hn, Nat.le_of_lt hlen, fun k b hk => ?_, fun k h1 h2 => ?_⟩
  · have hkl : k < l.length := (List.getElem?_eq_some_iff.mp hk).1
    rw [hcell, Function.update_of_ne]
    · exact h.holds (k + 1) b hk
    · intro he
      rw [hc, Nat.mod_add_mod, Nat.add_assoc] at he
      have := ring_inj (by omega) hn he
      omega
  · rw [hcell]
    by_cases hk : k + 1 = n
    · -- the cell that was freed is the last one now
      have : (c + (k + 1)) % n = c := by rw [hk, Nat.add_mod_right, Nat.mod_eq_of_lt h.start]
      rw [this, Function.update_self]
      exact hx
    · rw [Function.update_of_ne]
      · exact h.free (k + 1) (Nat.succ_le_succ h1) (by omega)
      · intro he
        rw [hc, Nat.mod_add_mod, Nat.add_assoc] at he
        have := ring_inj (by omega) hn he
        omega

/-- The only element is taken off, and the ring does not go on. -/
theorem Ring.clear (h : Ring n Holds Free f c [a]) (hx : Free x) :
    Ring n Holds Free (Function.update f c x) c [] := by
  have hn : 0 < n := Nat.zero_lt_of_lt h.start
  refine ⟨h.start, Nat.zero_le n, nofun, fun k _ h2 => ?_⟩
  by_cases hk : k = 0
  · rw [hk, Nat.add_zero, Nat.mod_eq_of_lt h.start, Function.update_self]
    exact hx
  · rw [Function.update_of_ne]
    · exact h.free k (Nat.pos_of_ne_zero hk) h2
    · intro he
      have hc : c = (c + 0) % n := by rw [Nat.add_zero, Nat.mod_eq_of_lt h.start]
      exact hk (ring_inj h2 hn (he.trans hc))

end Lib
