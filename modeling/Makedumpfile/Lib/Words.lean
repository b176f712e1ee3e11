import Mathlib.Algebra.Group.Nat.Defs
import Mathlib.Data.List.Basic
import Mathlib.Data.List.TakeWhile

/-!
# The words of a text

The words of a list are its maximal runs without separators. `strtok` takes them off one after the
other: a word and the place behind its end (`words_strtok`).
-/

namespace Lib

variable {α : Type*} (sep : α → Bool)

def words (l : List α) : List (List α) := (l.splitOnP sep).filter fun w => !w.isEmpty

/-- The first word and what is behind its separator. -/
def strtok (l : List α) : Option (List α × List α) :=
  match l.dropWhile sep with
  | [] => none
  | a :: l => some ((a :: l).takeWhile fun a => !sep a, ((a :: l).dropWhile fun a => !sep a).tail)

variable {sep} {l rest w : List α} {a : α}

@[simp] theorem words_nil : words sep [] = [] := by
  simp [words]

theorem words_cons_sep (h : sep a = true) (l : List α) : words sep (a :: l) = words sep l := by
  simp [words, List.splitOnP_cons_eq_if_modifyHead, h]

theorem words_dropWhile (l : List α) : words sep (l.dropWhile sep) = words sep l := by
  induction l with
  | nil => rfl
  | cons a l ih =>
    rw [List.dropWhile_cons]
    split
    · rename_i h
      rw [ih, words_cons_sep h]
    · rfl

/-- A word at the front. -/
theorem words_append (hw : w ≠ []) (hn : ∀ a ∈ w, sep a = false)
    (hrest : ∀ a ∈ rest.head?, sep a = true) : words sep (w ++ rest) = w :: words sep rest.tail := by
  have hne : (!w.isEmpty) = true := by simpa using hw
  unfold words
  cases rest with
  | nil =>
    rw [List.append_nil, List.splitOnP_eq_singleton hn]
    simp [hne]
  | cons b rest =>
    rw [List.splitOnP_append_cons_of_forall_mem hn b (hrest b rfl)]
    simp [hne]

theorem words_strtok (sep : α → Bool) (l : List α) :
    match strtok sep l with
    | none => words sep l = []
    | some (w, rest) => words sep l = w :: words sep rest := by
  rw [← words_dropWhile l]
  unfold strtok
  cases hd : l.dropWhile sep with
  | nil => exact words_nil
  | cons a l' =>
    have ha : sep a = false := by
      have h := List.head_dropWhile_not sep (l := l) (by simp [hd])
      simpa [hd] using h
    dsimp only
    conv_lhs => rw [← List.takeWhile_append_dropWhile (p := fun a => !sep a) (l := a :: l')]
    refine words_append (by simp [ha]) (fun b hb => ?_) fun b hb => ?_
    · simpa using List.mem_takeWhile_imp hb
    · have hne : (a :: l').dropWhile (fun a => !sep a) ≠ [] := by
        intro h
        rw [h] at hb
        cases hb
      have h := List.head_dropWhile_not (fun a => !sep a) hne
      rw [Option.mem_def, List.head?_eq_some_head hne, Option.some.injEq] at hb
      simpa [hb] using h

end Lib
