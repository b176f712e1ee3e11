import Makedumpfile.Lib.PageWalk

/-!
# Physical addresses

What the translations of all architectures return: an address, or `NOT_PADDR` for none.
-/

namespace Arch

open Lib

/-- `NOT_PADDR`. -/
def notPaddr : Word := BitVec.allOnes 64

/-- A physical address as the translations return it. -/
def paddr (pa : Option Nat) : Word := (pa.map (BitVec.ofNat 64)).getD notPaddr

theorem getD_notPaddr {r : Option Word} {pa : Option Nat} (h : r.map BitVec.toNat = pa) :
    r.getD notPaddr = paddr pa := by
  subst h
  cases r with
  | none => rfl
  | some x => simp [paddr]

/-- Different translations are returned as different words. -/
theorem paddr_inj {pa pa' : Option Nat} (h : ∀ x ∈ pa, x < 2 ^ 64 - 1) (h' : ∀ x ∈ pa', x < 2 ^ 64 - 1) :
    paddr pa = paddr pa' ↔ pa = pa' := by
  refine ⟨fun heq => ?_, fun heq => by rw [heq]⟩
  have hnat := congrArg BitVec.toNat heq
  cases pa with
  | none =>
    cases pa' with
    | none => rfl
    | some x' =>
      have hx' := h' x' rfl
      simp [paddr, notPaddr] at hnat
      omega
  | some x =>
    have hx := h x rfl
    cases pa' with
    | none =>
      simp [paddr, notPaddr] at hnat
      omega
    | some x' =>
      have hx' := h' x' rfl
      simp [paddr] at hnat
      rw [Nat.mod_eq_of_lt (by omega), Nat.mod_eq_of_lt (by omega)] at hnat
      rw [hnat]

/-- The last address is the only one that is returned as `NOT_PADDR`. -/
theorem paddr_eq_none_iff {pa : Option Nat} (h : ∀ x ∈ pa, x < 2 ^ 64) :
    paddr pa = paddr none ↔ ∀ x, pa = some x → x = 2 ^ 64 - 1 := by
  cases pa with
  | none => exact ⟨fun _ => nofun, fun _ => rfl⟩
  | some x =>
    have hlt := h x rfl
    constructor
    · intro heq y hy
      cases hy
      have hnat := congrArg BitVec.toNat heq
      simp [paddr, notPaddr] at hnat
      omega
    · intro hlast
      rw [hlast x rfl]
      decide

/-- Two walks that may stray return the same word exactly if they stray to the last address only. -/
theorem paddr_eq_iff_strays {σ ι : Type} {va : Nat} {f g : ι → PageLevel σ} {ns : List ι} {t : σ}
    (hshift : ∀ n, (g n).shift = (f n).shift)
    (hlookup : ∀ n t, (f n).lookup t va ≠ .absent → (g n).lookup t va ≠ .absent →
      (g n).lookup t va = (f n).lookup t va)
    (hf : ∀ x ∈ pageWalk va (ns.map f) t, x < 2 ^ 64)
    (hg : ∀ x ∈ pageWalk va (ns.map g) t, x < 2 ^ 64) :
    paddr (pageWalk va (ns.map g) t) = paddr (pageWalk va (ns.map f) t) ↔
      ∀ pa, Strays va f g ns t pa → pa = 2 ^ 64 - 1 := by
  rcases strays_cases hshift hlookup ns t with
    ⟨heq, hno⟩ | ⟨pa, hpa, ⟨hsome, hnone⟩ | ⟨hnone, hsome⟩⟩
  · rw [heq]
    exact ⟨fun _ pa h => absurd h (hno pa), fun _ => rfl⟩
  · rw [hnone, paddr_eq_none_iff hg]
    refine ⟨fun h pa' hpa' => ?_, fun h x hx => ?_⟩
    · rcases hpa'.translates hlookup with h' | h'
      · exact h pa' h'
      · rw [hnone] at h'
        cases h'
    · rw [hsome] at hx
      cases hx
      exact h pa hpa
  · rw [hnone, eq_comm, paddr_eq_none_iff hf]
    refine ⟨fun h pa' hpa' => ?_, fun h x hx => ?_⟩
    · rcases hpa'.translates hlookup with h' | h'
      · rw [hnone] at h'
        cases h'
      · exact h pa' h'
    · rw [hsome] at hx
      cases hx
      exact h pa hpa

end Arch
