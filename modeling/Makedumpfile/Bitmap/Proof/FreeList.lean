import Mathlib.Data.List.Chain
import Mathlib.Data.List.Nodup
import Mathlib.Data.List.Perm.Subperm
import Makedumpfile.Bitmap.FreeList

/-!
# The walk of a free list ends

Every entry that is passed has the entry before it as its `prev` (`walkList_isChain`). So two places
of the walk with one entry would have one entry before them too, and so on back to the head, which is
no entry (`nodup_of_isChain`): every entry is passed once. There are 2^64 addresses, so the walk ends
(`walkList_ends`), at the head or at an entry that is not accepted.
-/

namespace Bitmap

variable {z : Zone} {head : UInt64}

/-- A walk back from any place is determined by the place. -/
theorem nodup_of_isChain {α : Type} {prev : α → Option α} {h : α} {l : List α}
    (hc : (h :: l).IsChain fun a b => prev b = some a) (hh : h ∉ l) : (h :: l).Nodup := by
  have hne : ∀ i j (hi : i < (h :: l).length) (hj : j < (h :: l).length), i < j →
      (h :: l)[i] ≠ (h :: l)[j] := by
    intro i
    induction i with
    | zero =>
      intro j hi hj hlt heq
      obtain ⟨j, rfl⟩ := Nat.exists_eq_succ_of_ne_zero (Nat.ne_of_gt hlt)
      rw [List.getElem_cons_zero, List.getElem_cons_succ] at heq
      exact hh (heq ▸ List.getElem_mem _)
    | succ i ih =>
      intro j hi hj hlt heq
      obtain ⟨j, rfl⟩ := Nat.exists_eq_succ_of_ne_zero (Nat.ne_of_gt (Nat.zero_lt_of_lt hlt))
      have hpi := hc.getElem i hi
      have hpj := hc.getElem j hj
      rw [heq, hpj] at hpi
      exact ih j (by omega) (by omega) (by omega) (Option.some.inj hpi).symm
  refine List.pairwise_iff_getElem.2 fun i j hi hj hlt => hne i j hi hj hlt

theorem passEntry_prev {previous curr next : UInt64} (h : passEntry z previous curr = some next) :
    z.readmem (curr + z.listHeadPrev) = some previous := by
  unfold passEntry at h
  split at h
  case h_1 pfn currPrev _ hprev =>
    split at h
    case isTrue heq => rw [hprev, heq]
    case isFalse => cases h
  case h_2 => cases h

theorem walkList_isChain : ∀ (fuel : Nat) (previous curr : UInt64),
    (previous :: (walkList z head fuel previous curr).1).IsChain
      fun a b => z.readmem (b + z.listHeadPrev) = some a
  | 0, _, _ => by simp [walkList]
  | fuel + 1, previous, curr => by
    unfold walkList
    split
    case isTrue => simp
    case isFalse =>
      cases hp : passEntry z previous curr with
      | none => simp
      | some next =>
        exact List.isChain_cons_cons.2 ⟨passEntry_prev hp, walkList_isChain fuel curr next⟩

theorem walkList_ne_head : ∀ (fuel : Nat) (previous curr : UInt64),
    head ∉ (walkList z head fuel previous curr).1
  | 0, _, _ => by simp [walkList]
  | fuel + 1, previous, curr => by
    unfold walkList
    split
    case isTrue => simp
    case isFalse hne =>
      cases hp : passEntry z previous curr with
      | none => simp
      | some next =>
        simp only [List.mem_cons, not_or]
        exact ⟨fun h => hne h.symm, walkList_ne_head fuel curr next⟩

/-- Every entry is passed at most once. -/
theorem walkList_nodup (fuel : Nat) (curr : UInt64) :
    (head :: (walkList z head fuel head curr).1).Nodup :=
  nodup_of_isChain (walkList_isChain fuel head curr) (walkList_ne_head fuel head curr)

/-- A walk that has not ended has passed an entry in every round. -/
theorem walkList_length : ∀ (fuel : Nat) (previous curr : UInt64),
    (walkList z head fuel previous curr).2 = none →
    (walkList z head fuel previous curr).1.length = fuel
  | 0, _, _, _ => rfl
  | fuel + 1, previous, curr, h => by
    unfold walkList at h ⊢
    split at h
    case isTrue => cases h
    case isFalse hne =>
      rw [if_neg hne]
      cases hp : passEntry z previous curr with
      | none =>
        rw [hp] at h
        cases h
      | some next =>
        rw [hp] at h
        rw [List.length_cons, walkList_length fuel curr next h]

theorem length_le_of_nodup {l : List UInt64} (h : l.Nodup) : l.length ≤ 2 ^ 64 := by
  have hsub : l.map UInt64.toNat ⊆ List.range (2 ^ 64) := by
    intro n hn
    obtain ⟨x, -, rfl⟩ := List.mem_map.1 hn
    exact List.mem_range.2 x.toNat_lt
  have hnd : (l.map UInt64.toNat).Nodup :=
    List.Nodup.map (fun _ _ h => UInt64.toNat_inj.1 h) h
  have := (hnd.subperm hsub).length_le
  rwa [List.length_map, List.length_range] at this

theorem walkList_ends {fuel : Nat} (hf : 2 ^ 64 ≤ fuel) (curr : UInt64) :
    (walkList z head fuel head curr).2 ≠ none := by
  intro h
  have hlen := walkList_length fuel head curr h
  have := length_le_of_nodup (@walkList_nodup z head fuel curr)
  rw [List.length_cons, hlen] at this
  omega

/-- The entry at which a walk breaks off fails the checks. -/
theorem walkList_broken {entry : UInt64} : ∀ (fuel : Nat) (previous curr : UInt64),
    (walkList z head fuel previous curr).2 = some (.broken entry) →
    passEntry z ((walkList z head fuel previous curr).1.getLastD previous) entry = none
  | 0, _, _, h => by cases h
  | fuel + 1, previous, curr, h => by
    unfold walkList at h ⊢
    split at h
    case isTrue => cases h
    case isFalse hne =>
      rw [if_neg hne]
      cases hp : passEntry z previous curr with
      | none =>
        rw [hp] at h
        cases h
        exact hp
      | some next =>
        rw [hp] at h
        rw [List.getLastD_cons]
        exact walkList_broken fuel curr next h

/-! ## All lists -/

theorem walkFreeList_ends {fuel : Nat} (hf : 2 ^ 64 ≤ fuel) (order migrateType : Nat) :
    ∃ r, walkFreeList z fuel order migrateType = some r := by
  unfold walkFreeList
  dsimp only
  cases hn : z.readmem (listHead z order migrateType + z.listHeadNext) with
  | none => exact ⟨none, rfl⟩
  | some curr =>
    have hends := @walkList_ends z (listHead z order migrateType) fuel hf curr
    cases hw : walkList z (listHead z order migrateType) fuel (listHead z order migrateType) curr with
    | mk entries e =>
      rw [hw] at hends
      cases e with
      | none => exact absurd rfl hends
      | some e =>
        cases e with
        | head => exact ⟨_, by simp only [hw]; rfl⟩
        | broken entry => exact ⟨none, by simp only [hw]⟩

/-- A list that is walked without failure came back to its head. -/
theorem walkFreeList_head {fuel order migrateType : Nat} {blocks : List (UInt64 × Nat)}
    (h : walkFreeList z fuel order migrateType = some (some blocks)) :
    ∃ curr, z.readmem (listHead z order migrateType + z.listHeadNext) = some curr ∧
      (walkList z (listHead z order migrateType) fuel (listHead z order migrateType) curr).2 =
        some .head := by
  unfold walkFreeList at h
  dsimp only at h
  cases hn : z.readmem (listHead z order migrateType + z.listHeadNext) with
  | none =>
    rw [hn] at h
    cases h
  | some curr =>
    rw [hn] at h
    refine ⟨curr, rfl, ?_⟩
    cases hw : walkList z (listHead z order migrateType) fuel (listHead z order migrateType) curr with
    | mk entries e =>
      simp only [hw] at h
      cases e with
      | none => cases h
      | some e =>
        cases e with
        | head => rfl
        | broken entry => cases h

theorem walkFreeLists_ends {fuel : Nat} (hf : 2 ^ 64 ≤ fuel) :
    ∀ ls, ∃ r, walkFreeLists z fuel ls = some r
  | [] => ⟨_, rfl⟩
  | l :: ls => by
    obtain ⟨r, hr⟩ := walkFreeList_ends (z := z) hf l.1 l.2
    obtain ⟨rest, hrest⟩ := walkFreeLists_ends hf ls
    unfold walkFreeLists
    rw [hr]
    cases r with
    | none => exact ⟨none, rfl⟩
    | some blocks => exact ⟨rest.map (blocks ++ ·), by rw [hrest]; rfl⟩

theorem walkFreeLists_head {fuel : Nat} : ∀ {ls : List (Nat × Nat)} {blocks : List (UInt64 × Nat)},
    walkFreeLists z fuel ls = some (some blocks) →
    ∀ l ∈ ls, ∃ b, walkFreeList z fuel l.1 l.2 = some (some b)
  | [], _, _ => by simp
  | l :: ls, blocks, h => by
    unfold walkFreeLists at h
    cases hr : walkFreeList z fuel l.1 l.2 with
    | none =>
      rw [hr] at h
      cases h
    | some r =>
      cases r with
      | none =>
        rw [hr] at h
        cases h
      | some b =>
        rw [hr] at h
        obtain ⟨rest, hrest, hmap⟩ := Option.map_eq_some_iff.1 h
        obtain ⟨c, rfl, -⟩ := Option.map_eq_some_iff.1 hmap
        exact List.forall_mem_cons.2 ⟨⟨b, hr⟩, walkFreeLists_head hrest⟩

/-- **The free-list walk terminates.** Whatever the memory holds, every list passes each entry at most
once and ends, at its head or at an entry that fails the checks; the function returns, and TRUE only
when all lists came back to their heads. -/
theorem free_list_walk_ends (z : Zone) {fuel : Nat} (hf : 2 ^ 64 ≤ fuel) :
    (∀ order migrateType curr, ∀ head, head = listHead z order migrateType →
      (head :: (walkList z head fuel head curr).1).Nodup ∧
        ((walkList z head fuel head curr).2 = some .head ∨
          ∃ entry, (walkList z head fuel head curr).2 = some (.broken entry) ∧
            passEntry z ((walkList z head fuel head curr).1.getLastD head) entry = none)) ∧
    ∃ r, resetBitmapOfFreePages z fuel = some r ∧
      ∀ blocks, r = some blocks → ∀ l ∈ freeLists z, ∃ curr,
        z.readmem (listHead z l.1 l.2 + z.listHeadNext) = some curr ∧
          (walkList z (listHead z l.1 l.2) fuel (listHead z l.1 l.2) curr).2 = some .head := by
  constructor
  · intro order migrateType curr head _
    refine ⟨walkList_nodup fuel curr, ?_⟩
    have hends := @walkList_ends z head fuel hf curr
    cases he : (walkList z head fuel head curr).2 with
    | none => exact absurd he hends
    | some e =>
      cases e with
      | head => exact .inl rfl
      | broken entry => exact .inr ⟨entry, rfl, walkList_broken fuel head curr he⟩
  · obtain ⟨r, hr⟩ := walkFreeLists_ends (z := z) hf (freeLists z)
    refine ⟨_, by rw [resetBitmapOfFreePages, hr]; rfl, fun blocks hb l hl => ?_⟩
    cases r with
    | none => cases hb
    | some b =>
      obtain ⟨c, hc⟩ := walkFreeLists_head hr l hl
      exact walkFreeList_head hc

/-- A zone with one list, whose only entry points to itself. -/
def loopZone : Zone where
  readmem a := if a = 0x1010 then some 0x2008 else if a = 0x2010 then some 0x1010 else some 0x2008
  nodeZones := 0x1000
  orders := 1
  zoneFreeArea := 0x10
  sizeFreeArea := 0x18
  freeAreaFreeList := 0
  pageLru := 8
  sizePage := 64
  addrFreePages := some 0x1100
  memMapData := [⟨0x2000, 0, 16⟩]

/-- The entry is passed once and found broken when it is reached again. -/
theorem free_list_walk_ends_loopZone :
    (∃ r, resetBitmapOfFreePages loopZone (2 ^ 64) = some r) ∧
      walkList loopZone 0x1010 3 0x1010 0x2008 = ([0x2008], some (.broken 0x2008)) := by
  obtain ⟨-, r, hr, -⟩ := free_list_walk_ends loopZone (Nat.le_refl (2 ^ 64))
  exact ⟨⟨r, hr⟩, by decide⟩

end Bitmap
