import Mathlib.Data.Nat.Bitwise
import Mathlib.Data.List.Pairwise

/-!
# Page walks

A walk through page tables: each level takes the entry of its table for the address, and the entry says
that nothing is mapped, where the table of the next level is, or which frame the page has. `findLeaf` is
the frame with the size of its page, `pageWalk` the address in it. Two addresses in one page have the
same leaf (`findLeaf_congr`), so they are as far apart physically as virtually (`offset_sub`). A walk that
takes other entries than it should goes wrong exactly if it strays (`strays_cases`).

The second part is about the words: masks of the low bits as remainders and quotients.
-/

namespace Lib

abbrev Word := BitVec 64

/-- What an entry of a page table says. `σ` is what is known of a table: its address, its length. -/
inductive PageEntry (σ : Type) where
  | absent
  | table (t : σ)
  | leaf (frame : Nat)
  deriving Repr, DecidableEq

/-- One level of page tables: an entry stands for `2 ^ shift` bytes. -/
structure PageLevel (σ : Type) where
  shift : Nat
  /-- The entry of a table for the `2 ^ shift` bytes with this number, if there is one. -/
  entry : σ → Nat → Option Word
  decode : Word → PageEntry σ

/-- What the table of a level says about an address. -/
def PageLevel.lookup {σ : Type} (l : PageLevel σ) (t : σ) (va : Nat) : PageEntry σ :=
  match l.entry t (va >>> l.shift) with
  | none => .absent
  | some e => l.decode e

/-- The frame and the shift of the page that an address is in. -/
def findLeaf {σ : Type} (va : Nat) : List (PageLevel σ) → σ → Option (Nat × Nat)
  | [], _ => none
  | l :: ls, t =>
    match l.lookup t va with
    | .absent => none
    | .table t' => findLeaf va ls t'
    | .leaf frame => some (frame, l.shift)

/-- The physical address. -/
def pageWalk {σ : Type} (va : Nat) (ls : List (PageLevel σ)) (t : σ) : Option Nat :=
  (findLeaf va ls t).map fun leaf => leaf.1 + va % 2 ^ leaf.2

section
variable {σ : Type} {l : PageLevel σ} {ls : List (PageLevel σ)} {t t' : σ} {va va' frame s : Nat}

theorem PageLevel.lookup_none (h : l.entry t (va >>> l.shift) = none) : l.lookup t va = .absent := by
  rw [PageLevel.lookup, h]

theorem PageLevel.lookup_some {e : Word} (h : l.entry t (va >>> l.shift) = some e) :
    l.lookup t va = l.decode e := by
  rw [PageLevel.lookup, h]

theorem findLeaf_absent (h : l.lookup t va = .absent) : findLeaf va (l :: ls) t = none := by
  simp only [findLeaf, h]

theorem findLeaf_table (h : l.lookup t va = .table t') :
    findLeaf va (l :: ls) t = findLeaf va ls t' := by
  simp only [findLeaf, h]

theorem findLeaf_leaf (h : l.lookup t va = .leaf frame) :
    findLeaf va (l :: ls) t = some (frame, l.shift) := by
  simp only [findLeaf, h]

theorem PageLevel.lookup_leaf (h : l.lookup t va = .leaf frame) : ∃ e, l.decode e = .leaf frame := by
  cases he : l.entry t (va >>> l.shift) with
  | none =>
    rw [PageLevel.lookup_none he] at h
    cases h
  | some e =>
    rw [PageLevel.lookup_some he] at h
    exact ⟨e, h⟩

/-- A leaf is an entry of a level, and its page has the size of that level. -/
theorem findLeaf_mem (h : findLeaf va ls t = some (frame, s)) :
    ∃ l ∈ ls, l.shift = s ∧ ∃ e, l.decode e = .leaf frame := by
  induction ls generalizing t with
  | nil => cases h
  | cons l ls ih =>
    cases hl : l.lookup t va with
    | absent =>
      rw [findLeaf_absent hl] at h
      cases h
    | table t' =>
      rw [findLeaf_table hl] at h
      obtain ⟨l', hmem, hleaf⟩ := ih h
      exact ⟨l', List.mem_cons_of_mem _ hmem, hleaf⟩
    | leaf frame' =>
      rw [findLeaf_leaf hl] at h
      cases h
      exact ⟨l, List.mem_cons_self, rfl, PageLevel.lookup_leaf hl⟩

/-- **Addresses in one page have the same leaf.** -/
theorem findLeaf_congr (hls : ls.Pairwise fun l l' => l'.shift ≤ l.shift)
    (h : findLeaf va ls t = some (frame, s)) (hva : va' >>> s = va >>> s) :
    findLeaf va' ls t = some (frame, s) := by
  induction ls generalizing t with
  | nil => cases h
  | cons l ls ih =>
    obtain ⟨hfirst, hrest⟩ := List.pairwise_cons.1 hls
    have hle : s ≤ l.shift := by
      obtain ⟨l', hmem, rfl, -⟩ := findLeaf_mem h
      cases hmem with
      | head => exact Nat.le_refl _
      | tail _ hmem => exact hfirst l' hmem
    -- the number of the larger unit is a part of the number of the page
    have hlookup : l.lookup t va' = l.lookup t va := by
      have hnum : va' >>> l.shift = va >>> l.shift := by
        rw [show l.shift = s + (l.shift - s) by omega, Nat.shiftRight_add, hva, ← Nat.shiftRight_add]
      rw [PageLevel.lookup, PageLevel.lookup, hnum]
    cases hl : l.lookup t va with
    | absent =>
      rw [findLeaf_absent hl] at h
      cases h
    | table t' =>
      rw [findLeaf_table hl] at h
      rw [findLeaf_table (hlookup.trans hl)]
      exact ih hrest h
    | leaf frame' =>
      rw [findLeaf_leaf hl] at h
      rw [findLeaf_leaf (hlookup.trans hl), h]

/-- **Two addresses in one page** are as far apart physically as virtually. -/
theorem offset_sub (frame : Nat) (hva : va' >>> s = va >>> s) :
    ((frame + va' % 2 ^ s : Nat) : Int) - (frame + va % 2 ^ s : Nat) = (va' : Int) - va := by
  rw [Nat.shiftRight_eq_div_pow, Nat.shiftRight_eq_div_pow] at hva
  have h1 := Nat.div_add_mod va (2 ^ s)
  have h2 := Nat.div_add_mod va' (2 ^ s)
  rw [hva] at h2
  omega

/-- The leaf by way of an entry, with the levels below it. -/
def PageEntry.leafBelow (va shift : Nat) (ls : List (PageLevel σ)) : PageEntry σ → Option (Nat × Nat)
  | .absent => none
  | .table t => findLeaf va ls t
  | .leaf frame => some (frame, shift)

/-- One level of the search for the leaf. -/
theorem findLeaf_cons (va : Nat) (l : PageLevel σ) (ls : List (PageLevel σ)) (t : σ) :
    findLeaf va (l :: ls) t =
      (l.entry t (va >>> l.shift)).bind fun e => (l.decode e).leafBelow va l.shift ls := by
  unfold findLeaf PageLevel.lookup
  cases l.entry t (va >>> l.shift) with
  | none => rfl
  | some e =>
    rw [Option.bind_some]
    dsimp only
    cases l.decode e with
    | absent => rfl
    | table t' => rfl
    | leaf frame => rfl

/-- The address by way of an entry, with the levels below it. -/
def PageEntry.resolve (va shift : Nat) (ls : List (PageLevel σ)) : PageEntry σ → Option Nat
  | .absent => none
  | .table t => pageWalk va ls t
  | .leaf frame => some (frame + va % 2 ^ shift)

/-- One level of a walk: the entry of the table, and what follows from it. -/
theorem pageWalk_cons (va : Nat) (l : PageLevel σ) (ls : List (PageLevel σ)) (t : σ) :
    pageWalk va (l :: ls) t =
      (l.entry t (va >>> l.shift)).bind fun e => (l.decode e).resolve va l.shift ls := by
  unfold pageWalk findLeaf PageLevel.lookup
  cases l.entry t (va >>> l.shift) with
  | none => rfl
  | some e =>
    rw [Option.bind_some]
    dsimp only
    cases l.decode e with
    | absent => rfl
    | table t' => rfl
    | leaf frame => rfl

/-! ### Tables on the way -/

/-- The table that the levels lead to, if no entry on the way is absent or a leaf. -/
def descend (va : Nat) : List (PageLevel σ) → σ → Option σ
  | [], t => some t
  | l :: ls, t =>
    match l.lookup t va with
    | .table t' => descend va ls t'
    | _ => none

theorem pageWalk_append_of_descend {ms : List (PageLevel σ)} (h : descend va ls t = some t') :
    pageWalk va (ls ++ ms) t = pageWalk va ms t' := by
  induction ls generalizing t with
  | nil =>
    cases h
    rfl
  | cons l ls ih =>
    rw [descend] at h
    cases hl : l.lookup t va with
    | absent =>
      rw [hl] at h
      cases h
    | table t'' =>
      rw [hl] at h
      rw [List.cons_append, pageWalk, findLeaf_table hl]
      exact ih h
    | leaf frame =>
      rw [hl] at h
      cases h

/-- The levels below do not matter if they are not reached. -/
theorem pageWalk_append_congr {ms ms' : List (PageLevel σ)} (h : descend va ls t = none) :
    pageWalk va (ls ++ ms) t = pageWalk va (ls ++ ms') t := by
  induction ls generalizing t with
  | nil => cases h
  | cons l ls ih =>
    rw [descend] at h
    rw [List.cons_append, List.cons_append, pageWalk, pageWalk]
    cases hl : l.lookup t va with
    | absent => rw [findLeaf_absent hl, findLeaf_absent hl]
    | table t'' =>
      rw [hl] at h
      rw [findLeaf_table hl, findLeaf_table hl]
      exact ih h
    | leaf frame => rw [findLeaf_leaf hl, findLeaf_leaf hl]

/-! ### Walks that take entries in different ways -/

variable {ι : Type} {f g : ι → PageLevel σ}

/-- At the first table where only one of the levels `f` and `g` has something for the address, these
levels translate it to `pa`. -/
def Strays (va : Nat) (f g : ι → PageLevel σ) : List ι → σ → Nat → Prop
  | [], _, _ => False
  | n :: ns, t, pa =>
    match (f n).lookup t va, (g n).lookup t va with
    | .absent, _ => pageWalk va ((n :: ns).map g) t = some pa
    | _, .absent => pageWalk va ((n :: ns).map f) t = some pa
    | .table t', _ => Strays va f g ns t' pa
    | .leaf _, _ => False

theorem pageWalk_absent (ls : List (PageLevel σ)) (h : l.lookup t va = .absent) :
    pageWalk va (l :: ls) t = none := by
  rw [pageWalk, findLeaf_absent h, Option.map_none]

theorem pageWalk_table (h : l.lookup t va = .table t') :
    pageWalk va (l :: ls) t = pageWalk va ls t' := by
  rw [pageWalk, findLeaf_table h, pageWalk]

theorem pageWalk_leaf (h : l.lookup t va = .leaf frame) :
    pageWalk va (l :: ls) t = some (frame + va % 2 ^ l.shift) := by
  rw [pageWalk, findLeaf_leaf h, Option.map_some]

/-- An address that a walk strays to is the address by one of the levels. -/
theorem Strays.translates {ns : List ι} {pa : Nat} (h : Strays va f g ns t pa)
    (hlookup : ∀ n t, (f n).lookup t va ≠ .absent → (g n).lookup t va ≠ .absent →
      (g n).lookup t va = (f n).lookup t va) :
    pageWalk va (ns.map g) t = some pa ∨ pageWalk va (ns.map f) t = some pa := by
  induction ns generalizing t with
  | nil => exact h.elim
  | cons n ns ih =>
    simp only [Strays] at h
    cases hf : (f n).lookup t va with
    | absent =>
      rw [hf] at h
      exact .inl h
    | table t' =>
      cases hg : (g n).lookup t va with
      | absent =>
        rw [hf, hg] at h
        exact .inr h
      | table t'' =>
        have hsame := hlookup n t (by simp [hf]) (by simp [hg])
        rw [hf, hg] at h hsame
        cases hsame
        rw [List.map_cons, List.map_cons, pageWalk_table hf, pageWalk_table hg]
        exact ih h
      | leaf frame =>
        have hsame := hlookup n t (by simp [hf]) (by simp [hg])
        rw [hf, hg] at hsame
        cases hsame
    | leaf frame =>
      cases hg : (g n).lookup t va with
      | absent =>
        rw [hf, hg] at h
        exact .inr h
      | table t' =>
        rw [hf, hg] at h
        exact h.elim
      | leaf frame' =>
        rw [hf, hg] at h
        exact h.elim

/-- **Levels that take other entries** translate in the same way, or only one of them does. -/
theorem strays_cases (hshift : ∀ n, (g n).shift = (f n).shift)
    (hlookup : ∀ n t, (f n).lookup t va ≠ .absent → (g n).lookup t va ≠ .absent →
      (g n).lookup t va = (f n).lookup t va)
    (ns : List ι) (t : σ) :
    (pageWalk va (ns.map g) t = pageWalk va (ns.map f) t ∧ ∀ pa, ¬ Strays va f g ns t pa) ∨
    ∃ pa, Strays va f g ns t pa ∧
      (pageWalk va (ns.map g) t = some pa ∧ pageWalk va (ns.map f) t = none ∨
        pageWalk va (ns.map g) t = none ∧ pageWalk va (ns.map f) t = some pa) := by
  induction ns generalizing t with
  | nil => exact .inl ⟨rfl, fun _ => not_false⟩
  | cons n ns ih =>
    simp only [Strays]
    cases hf : (f n).lookup t va with
    | absent =>
      have hnone := pageWalk_absent (ns.map f) hf
      rw [← List.map_cons] at hnone
      cases hg : pageWalk va ((n :: ns).map g) t with
      | none => exact .inl ⟨hnone.symm, nofun⟩
      | some pa => exact .inr ⟨pa, rfl, .inl ⟨rfl, hnone⟩⟩
    | table t' =>
      cases hg : (g n).lookup t va with
      | absent =>
        have hnone := pageWalk_absent (ns.map g) hg
        rw [← List.map_cons] at hnone
        cases hf : pageWalk va ((n :: ns).map f) t with
        | none => exact .inl ⟨hnone, nofun⟩
        | some pa => exact .inr ⟨pa, rfl, .inr ⟨hnone, rfl⟩⟩
      | table t'' =>
        have hsame := hlookup n t (by simp [hf]) (by simp [hg])
        rw [hf, hg] at hsame
        cases hsame
        rw [List.map_cons, List.map_cons, pageWalk_table hf, pageWalk_table hg]
        exact ih t'
      | leaf frame =>
        have hsame := hlookup n t (by simp [hf]) (by simp [hg])
        rw [hf, hg] at hsame
        cases hsame
    | leaf frame =>
      cases hg : (g n).lookup t va with
      | absent =>
        have hnone := pageWalk_absent (ns.map g) hg
        rw [← List.map_cons] at hnone
        cases hf : pageWalk va ((n :: ns).map f) t with
        | none => exact .inl ⟨hnone, nofun⟩
        | some pa => exact .inr ⟨pa, rfl, .inr ⟨hnone, rfl⟩⟩
      | table t' =>
        have hsame := hlookup n t (by simp [hf]) (by simp [hg])
        rw [hf, hg] at hsame
        cases hsame
      | leaf frame' =>
        have hsame := hlookup n t (by simp [hf]) (by simp [hg])
        rw [hf, hg] at hsame
        cases hsame
        rw [List.map_cons, List.map_cons, pageWalk_leaf hf, pageWalk_leaf hg, hshift]
        exact .inl ⟨rfl, fun _ => not_false⟩

theorem pageWalk_eq_iff (hshift : ∀ n, (g n).shift = (f n).shift)
    (hlookup : ∀ n t, (f n).lookup t va ≠ .absent → (g n).lookup t va ≠ .absent →
      (g n).lookup t va = (f n).lookup t va)
    (ns : List ι) (t : σ) :
    pageWalk va (ns.map g) t = pageWalk va (ns.map f) t ↔ ∀ pa, ¬ Strays va f g ns t pa := by
  rcases strays_cases hshift hlookup ns t with ⟨heq, hno⟩ | ⟨pa, hpa, ⟨hg, hf⟩ | ⟨hg, hf⟩⟩
  · exact ⟨fun _ => hno, fun _ => heq⟩
  · rw [hg, hf]
    exact ⟨nofun, fun h => absurd hpa (h pa)⟩
  · rw [hg, hf]
    exact ⟨nofun, fun h => absurd hpa (h pa)⟩

end

/-! ## Masks -/

/-- The low `n` bits. -/
def lowMask (n : Nat) : Word := 1#64 <<< n - 1#64

theorem toNat_lowMask {n : Nat} (h : n ≤ 64) : (lowMask n).toNat = 2 ^ n - 1 := by
  have hpos := Nat.two_pow_pos n
  rw [lowMask, BitVec.toNat_sub, BitVec.toNat_shiftLeft, Nat.shiftLeft_eq]
  rcases Nat.lt_or_eq_of_le h with hlt | rfl
  · have hpow : 2 ^ n < 2 ^ 64 := Nat.pow_lt_pow_right (by decide) hlt
    rw [show (1#64).toNat = 1 by rfl, Nat.one_mul, Nat.mod_eq_of_lt hpow,
      show 2 ^ 64 - 1 + 2 ^ n = 2 ^ n - 1 + 2 ^ 64 by omega, Nat.add_mod_right,
      Nat.mod_eq_of_lt (by omega)]
  · rfl

theorem toNat_and_lowMask (x : Word) {n : Nat} (h : n ≤ 64) :
    (x &&& lowMask n).toNat = x.toNat % 2 ^ n := by
  rw [BitVec.toNat_and, toNat_lowMask h, Nat.and_two_pow_sub_one_eq_mod]

/-- A word is its bits in a mask and the others. -/
theorem toNat_and_add_and_not (x m : Word) :
    (x &&& ~~~m).toNat + (x &&& m).toNat = x.toNat := by
  have hdisjoint : (x &&& ~~~m) &&& (x &&& m) = 0#64 := by
    apply BitVec.eq_of_getLsbD_eq
    intro i hi
    simp only [BitVec.getLsbD_and, BitVec.getLsbD_not, BitVec.getLsbD_zero]
    cases x.getLsbD i <;> cases m.getLsbD i <;> simp
  have hjoin : (x &&& ~~~m) ||| (x &&& m) = x := by
    apply BitVec.eq_of_getLsbD_eq
    intro i hi
    simp only [BitVec.getLsbD_or, BitVec.getLsbD_and, BitVec.getLsbD_not]
    cases x.getLsbD i <;> cases m.getLsbD i <;> simp [hi]
  rw [← BitVec.toNat_add_of_and_eq_zero hdisjoint, BitVec.add_eq_or_of_and_eq_zero _ _ hdisjoint,
    hjoin]

theorem toNat_and_not_lowMask (x : Word) {n : Nat} (h : n ≤ 64) :
    (x &&& ~~~(lowMask n)).toNat = x.toNat / 2 ^ n * 2 ^ n := by
  have hsum := toNat_and_add_and_not x (lowMask n)
  rw [toNat_and_lowMask x h] at hsum
  have hdiv := Nat.div_add_mod' x.toNat (2 ^ n)
  omega

/-- The bits of `x` from `n` on with those of `y` below `n`. -/
theorem toNat_high_add_low (x y : Word) {n : Nat} (h : n ≤ 64) :
    ((x &&& ~~~(lowMask n)) + (y &&& lowMask n)).toNat =
      x.toNat / 2 ^ n * 2 ^ n + y.toNat % 2 ^ n := by
  have hx := toNat_and_not_lowMask x h
  have hy := toNat_and_lowMask y h
  have hlt : x.toNat / 2 ^ n * 2 ^ n + y.toNat % 2 ^ n < 2 ^ 64 := by
    have hmod := Nat.mod_lt y.toNat (Nat.two_pow_pos n)
    have hq : (x.toNat / 2 ^ n + 1) * 2 ^ n ≤ 2 ^ 64 := by
      have hdvd : 2 ^ 64 = 2 ^ (64 - n) * 2 ^ n := by rw [← Nat.pow_add, Nat.sub_add_cancel h]
      rw [hdvd]
      refine Nat.mul_le_mul_right _ (Nat.succ_le_of_lt (Nat.div_lt_of_lt_mul ?_))
      rw [Nat.mul_comm, ← hdvd]
      exact x.isLt
    rw [Nat.add_mul, Nat.one_mul] at hq
    omega
  rw [BitVec.toNat_add, hx, hy, Nat.mod_eq_of_lt hlt]

/-- Bits `s` to `s + n`. -/
theorem toNat_shift_and_lowMask (x : Word) (s : Nat) {n : Nat} (h : n ≤ 64) :
    ((x >>> s) &&& lowMask n).toNat = x.toNat >>> s % 2 ^ n := by
  rw [toNat_and_lowMask _ h, BitVec.toNat_ushiftRight]

/-- The address of the entry `i` of a table of words. -/
theorem add_index_mul (t : Nat) (i : Word) :
    BitVec.ofNat 64 t + i * 8#64 = BitVec.ofNat 64 (t + i.toNat * 8) := by
  apply BitVec.eq_of_toNat_eq
  rw [BitVec.toNat_add, BitVec.toNat_mul, BitVec.toNat_ofNat, BitVec.toNat_ofNat,
    BitVec.toNat_ofNat, Nat.mod_eq_of_lt (show 8 < 2 ^ 64 by decide), Nat.mod_add_mod, Nat.add_mod_mod]

theorem ofNat_toNat (x : Word) : BitVec.ofNat 64 x.toNat = x := by
  rw [BitVec.ofNat_toNat, BitVec.setWidth_eq]

theorem and_bit_eq_zero (x : Word) {i : Nat} (h : i < 64) :
    (x &&& 1#64 <<< i = 0#64) ↔ x.getLsbD i = false := by
  rw [← BitVec.twoPow_eq, BitVec.and_twoPow]
  cases x.getLsbD i with
  | false => simp
  | true =>
    have hne : BitVec.twoPow 64 i ≠ 0#64 := by
      intro heq
      have hbit := congrArg (BitVec.getLsbD · i) heq
      simp [h] at hbit
    simp [hne]

end Lib
