import Mathlib.Algebra.Group.Nat.Defs
import Mathlib.Data.List.Basic
import Mathlib.Logic.Function.Basic

/-!
# Doubly linked lists

A store of nodes with a link to the next and one to the previous node, and a head and a tail
(`DList`). `d.Holds l` says that the list from the head on is `l`, without repetition, with the right
links in both directions; `push` and `unlink` keep it (`Holds.push`, `Holds.unlink`) and touch no
other node's links (`push_frame`, `Holds.unlink_frame`), so several lists can share one store
(`Holds.congr`).
-/

namespace Lib

variable {α : Type*}

structure DList (α : Type*) where
  next : α → Option α
  prev : α → Option α
  head : Option α
  tail : Option α

namespace DList

/-- The nodes are linked in the order of the list, with `p` before them and `n` behind them. -/
def Linked (d : DList α) : Option α → List α → Option α → Prop
  | _, [], _ => True
  | p, a :: l, n => d.prev a = p ∧ d.next a = l.head?.or n ∧ d.Linked (some a) l n

structure Holds (d : DList α) (l : List α) : Prop where
  head : d.head = l.head?
  tail : d.tail = l.getLast?
  linked : d.Linked none l none
  nodup : l.Nodup

variable {d d' : DList α} {a b : α} {l l₁ l₂ : List α} {p p' n n' : Option α}

theorem linked_append :
    d.Linked p (l₁ ++ l₂) n ↔
      d.Linked p l₁ (l₂.head?.or n) ∧ d.Linked (l₁.getLast?.or p) l₂ n := by
  induction l₁ generalizing p with
  | nil => simp [Linked]
  | cons a l₁ ih =>
    have hhead : (l₁ ++ l₂).head?.or n = l₁.head?.or (l₂.head?.or n) := by
      cases l₁ <;> simp
    have hlast : l₁.getLast?.or (some a) = (a :: l₁).getLast?.or p := by
      cases l₁ <;> simp [List.getLast?_cons]
    simp only [List.cons_append, Linked, ih, hhead, hlast, and_assoc]

theorem Linked.congr (h : d.Linked p l n) (hnext : ∀ a ∈ l, d'.next a = d.next a)
    (hprev : ∀ a ∈ l, d'.prev a = d.prev a) : d'.Linked p l n := by
  induction l generalizing p with
  | nil => trivial
  | cons a l ih =>
    obtain ⟨hp, hn, hl⟩ := h
    exact ⟨(hprev a List.mem_cons_self).trans hp, (hnext a List.mem_cons_self).trans hn,
      ih hl (fun b hb => hnext b (List.mem_cons_of_mem _ hb))
        (fun b hb => hprev b (List.mem_cons_of_mem _ hb))⟩

/-- Another node behind the list: only the last link changes. -/
theorem Linked.relink_next (h : d.Linked p l n) (hnd : l.Nodup)
    (hnext : ∀ a ∈ l, l.getLast? ≠ some a → d'.next a = d.next a)
    (hlast : ∀ a, l.getLast? = some a → d'.next a = n')
    (hprev : ∀ a ∈ l, d'.prev a = d.prev a) : d'.Linked p l n' := by
  induction l generalizing p with
  | nil => trivial
  | cons a l ih =>
    obtain ⟨hp, hn, hl⟩ := h
    obtain ⟨ha, hnd'⟩ := List.nodup_cons.mp hnd
    refine ⟨(hprev a List.mem_cons_self).trans hp, ?_, ?_⟩
    · cases l with
      | nil => exact hlast a rfl
      | cons b l =>
        refine (hnext a List.mem_cons_self fun he => ha ?_).trans hn
        exact List.mem_of_getLast? (List.getLast?_cons_cons (a := a) ▸ he)
    · cases l with
      | nil => trivial
      | cons b l =>
        refine ih hl hnd' (fun c hc hne => ?_) (fun c hc => ?_) fun c hc => ?_
        · refine hnext c (List.mem_cons_of_mem _ hc) ?_
          rwa [List.getLast?_cons_cons]
        · exact hlast c (List.getLast?_cons_cons.trans hc)
        · exact hprev c (List.mem_cons_of_mem _ hc)

/-- Another node before the list: only the first link changes. -/
theorem Linked.relink_prev (h : d.Linked p l n) (hnd : l.Nodup)
    (hnext : ∀ a ∈ l, d'.next a = d.next a)
    (hfirst : ∀ a, l.head? = some a → d'.prev a = p')
    (hprev : ∀ a ∈ l, l.head? ≠ some a → d'.prev a = d.prev a) : d'.Linked p' l n := by
  cases l with
  | nil => trivial
  | cons a l =>
    obtain ⟨-, hn, hl⟩ := h
    obtain ⟨ha, -⟩ := List.nodup_cons.mp hnd
    refine ⟨hfirst a rfl, (hnext a List.mem_cons_self).trans hn, hl.congr
      (fun b hb => hnext b (List.mem_cons_of_mem _ hb)) fun b hb => ?_⟩
    refine hprev b (List.mem_cons_of_mem _ hb) fun he => ha ?_
    rw [List.head?_cons, Option.some.injEq] at he
    exact he ▸ hb

theorem Holds.congr (h : d.Holds l) (hhead : d'.head = d.head) (htail : d'.tail = d.tail)
    (hnext : ∀ a ∈ l, d'.next a = d.next a) (hprev : ∀ a ∈ l, d'.prev a = d.prev a) :
    d'.Holds l :=
  ⟨hhead.trans h.head, htail.trans h.tail, h.linked.congr hnext hprev, h.nodup⟩

/-- The links of a node in the middle. -/
theorem Holds.links (h : d.Holds (l₁ ++ a :: l₂)) :
    d.prev a = l₁.getLast? ∧ d.next a = l₂.head? := by
  obtain ⟨-, hp, hn, -⟩ := linked_append.mp h.linked
  rw [Option.or_none] at hp hn
  exact ⟨hp, hn⟩

/-! ## A new first node -/

variable [DecidableEq α]

def push (d : DList α) (a : α) : DList α where
  next := Function.update d.next a d.head
  prev := match d.head with
    | some b => Function.update (Function.update d.prev a none) b (some a)
    | none => Function.update d.prev a none
  head := some a
  tail := d.tail.or (some a)

theorem push_next (hb : b ≠ a) : (d.push a).next b = d.next b :=
  Function.update_of_ne hb _ _

theorem push_prev (hb : b ≠ a) (hh : d.head ≠ some b) : (d.push a).prev b = d.prev b := by
  cases hc : d.head with
  | none =>
    simp only [push, hc]
    exact Function.update_of_ne hb _ _
  | some c =>
    have hbc : b ≠ c := fun he => hh (he ▸ hc)
    simp only [push, hc]
    rw [Function.update_of_ne hbc, Function.update_of_ne hb]

/-- The links of a node in another list do not change. -/
theorem push_frame (h : d.Holds l) (hb : b ≠ a) (hl : b ∉ l) :
    (d.push a).next b = d.next b ∧ (d.push a).prev b = d.prev b := by
  refine ⟨push_next hb, push_prev hb fun he => hl ?_⟩
  rw [h.head] at he
  exact List.mem_of_head? he

theorem Holds.push (h : d.Holds l) (ha : a ∉ l) : (d.push a).Holds (a :: l) := by
  have hne {b : α} (hb : b ∈ l) : b ≠ a := fun he => ha (he ▸ hb)
  have hh := h.head
  refine ⟨rfl, ?_, ⟨?_, ?_, ?_⟩, List.nodup_cons.mpr ⟨ha, h.nodup⟩⟩
  · rw [DList.push, h.tail]
    cases l <;> simp [List.getLast?_cons]
  · cases l with
    | nil =>
      simp only [DList.push, hh, List.head?_nil, Function.update_self]
    | cons b l =>
      simp only [DList.push, hh, List.head?_cons]
      rw [Function.update_of_ne (hne List.mem_cons_self).symm, Function.update_self]
  · simp only [DList.push, Function.update_self, hh, Option.or_none]
  · refine h.linked.relink_prev h.nodup (fun b hb => push_next (hne hb)) (fun b hb => ?_)
      fun b hb hf => push_prev (hne hb) (hh ▸ hf)
    simp only [DList.push, hh, hb, Function.update_self]

/-! ## Taking a node out -/

def unlink (d : DList α) (a : α) : DList α where
  next := match d.prev a with
    | some b => Function.update d.next b (d.next a)
    | none => d.next
  prev := match d.next a with
    | some b => Function.update d.prev b (d.prev a)
    | none => d.prev
  head := match d.prev a with
    | some _ => d.head
    | none => d.next a
  tail := match d.next a with
    | some _ => d.tail
    | none => d.prev a

theorem unlink_next (hb : d.prev a ≠ some b) : (d.unlink a).next b = d.next b := by
  cases hc : d.prev a with
  | none => simp only [unlink, hc]
  | some c =>
    have hbc : b ≠ c := fun he => hb (he ▸ hc)
    simp only [unlink, hc, Function.update_of_ne hbc]

theorem unlink_prev (hb : d.next a ≠ some b) : (d.unlink a).prev b = d.prev b := by
  cases hc : d.next a with
  | none => simp only [unlink, hc]
  | some c =>
    have hbc : b ≠ c := fun he => hb (he ▸ hc)
    simp only [unlink, hc, Function.update_of_ne hbc]

theorem Holds.unlink_frame (h : d.Holds (l₁ ++ a :: l₂)) (h₁ : b ∉ l₁) (h₂ : b ∉ l₂) :
    (d.unlink a).next b = d.next b ∧ (d.unlink a).prev b = d.prev b := by
  obtain ⟨hp, hn⟩ := h.links
  refine ⟨unlink_next fun he => h₁ ?_, unlink_prev fun he => h₂ ?_⟩
  · exact List.mem_of_getLast? (hp.symm.trans he)
  · exact List.mem_of_head? (hn.symm.trans he)

theorem Holds.unlink (h : d.Holds (l₁ ++ a :: l₂)) : (d.unlink a).Holds (l₁ ++ l₂) := by
  obtain ⟨hp, hn⟩ := h.links
  obtain ⟨hl₁, -, -, hl₂⟩ := linked_append.mp h.linked
  have hnd' : (l₁ ++ l₂).Nodup :=
    h.nodup.sublist (List.Sublist.append_left (List.sublist_cons_self a l₂) l₁)
  obtain ⟨hnd₁, hnd₂, hdis⟩ := List.nodup_append.mp hnd'
  refine ⟨?_, ?_, linked_append.mpr ⟨?_, ?_⟩, hnd'⟩
  · simp only [DList.unlink, hp, hn, h.head]
    cases l₁ with
    | nil => rfl
    | cons c l₁ => simp [List.getLast?_cons]
  · simp only [DList.unlink, hp, hn, h.tail]
    cases l₂ with
    | nil => simp
    | cons c l₂ => simp [List.getLast?_append, List.getLast?_cons]
  · refine hl₁.relink_next hnd₁ (fun b hb hne => unlink_next (hp ▸ hne)) (fun b hb => ?_)
      fun b hb => unlink_prev fun he => ?_
    · simp only [DList.unlink, hp, hb, Function.update_self, hn, Option.or_none]
    · exact hdis b hb b (List.mem_of_head? (hn ▸ he)) rfl
  · refine hl₂.relink_prev hnd₂ (fun b hb => unlink_next fun he => ?_) (fun b hb => ?_)
      fun b hb hne => unlink_prev (hn ▸ hne)
    · exact hdis b (List.mem_of_getLast? (hp ▸ he)) b hb rfl
    · simp only [DList.unlink, hn, hb, Function.update_self, hp, Option.or_none]

end DList

end Lib
