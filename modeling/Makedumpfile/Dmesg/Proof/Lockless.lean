import Makedumpfile.Dmesg.Lockless
import Mathlib.Tactic.Common

/-!
# The lockless log

The text of a record: the length is cut to the room between the descriptor id and the end of the
block, by an unsigned subtraction that has the right value exactly when the block has room for the id
(`text_inside_iff`).

The loop visits the ids from its start up to the head (`visitIds_eq`). With `clear_seq` it starts in
the lap of the head: behind the head when `clear_seq` is there, and then it runs through all ids; and
after a record that is still there when `clear_seq` belongs to an earlier lap (`partial_ok_iff`).
-/

namespace Dmesg

open Lib

variable {m : PrbMap} {id head tail : Nat}

theorem textDataRingSize_pos (m : PrbMap) : 0 < m.textDataRingSize := by
  rw [PrbMap.textDataRingSize, Nat.one_shiftLeft]
  exact Nat.two_pow_pos _

theorem textDataRingSize_le (m : PrbMap) : m.textDataRingSize ≤ 2 ^ 30 := by
  rw [PrbMap.textDataRingSize, Nat.one_shiftLeft]
  exact Nat.pow_le_pow_right (by decide) m.sizeBits_le

/-! ## The text of a record -/

variable (m id) in
/-- **What is asked of the text**: every byte of it is in the ring, and it is no longer than the room
between the descriptor id and the end of the block. -/
def TextInside : Prop :=
  ∀ block, textBlock m id = some block → ∀ span, textSpan m id = some span →
    (∀ i < span.2, span.1 + i < m.textDataRingSize) ∧ span.2 ≤ block.2 - (block.1 + 8)

/-- A block lies in the ring. -/
theorem textBlock_lt {b : Nat × Nat} (h : textBlock m id = some b) :
    b.1 ≤ b.2 ∧ b.2 < m.textDataRingSize := by
  have hpos := textDataRingSize_pos m
  unfold textBlock at h
  dsimp only at h
  split at h
  · cases h
  · split at h
    · cases h
    · rename_i hne
      cases h
      have := Nat.mod_lt (m.read m.descs (m.desc id + m.lposNext) 8) hpos
      dsimp only
      split <;> omega

/-- The cut is right when there is room for the id, and does nothing otherwise. -/
theorem u64sub_eq {a b : Nat} (ha : a < 2 ^ 30) (hb : b ≤ 2 ^ 30 + 8) :
    u64sub a b = if b ≤ a then a - b else a + 2 ^ 64 - b := by
  unfold u64sub
  split <;> omega

theorem infoTextLen_lt (m : PrbMap) (id : Nat) : infoTextLen m id < 2 ^ 16 := by
  have h := hostNat_lt m.bigendian (ByteFile.pread m.infos (m.info id + m.textLen) 2)
  have hlen : (ByteFile.pread m.infos (m.info id + m.textLen) 2).length ≤ 2 := by
    rw [ByteFile.length_pread]
    omega
  have hpow := Nat.pow_le_pow_right (show 0 < 256 by decide) hlen
  exact Nat.lt_of_lt_of_le h hpow

/-- **Exactly when the text stays inside**: the record is skipped, its length is 0, or its block has
room for the descriptor id. -/
theorem text_inside_iff (m : PrbMap) (id : Nat) :
    TextInside m id ↔ ∀ block, textBlock m id = some block →
      infoTextLen m id = 0 ∨ block.1 + 8 ≤ block.2 := by
  have hsize := textDataRingSize_le m
  have hlen := infoTextLen_lt m id
  unfold TextInside textSpan
  cases hb : textBlock m id with
  | none => simp
  | some b =>
    obtain ⟨h1, h2⟩ := textBlock_lt hb
    have hsub := u64sub_eq (show b.2 < 2 ^ 30 by omega) (show b.1 + 8 ≤ 2 ^ 30 + 8 by omega)
    simp only [Option.some.injEq, Option.map_some, forall_eq']
    rw [hsub]
    by_cases hroom : b.1 + 8 ≤ b.2
    · rw [if_pos hroom]
      simp only [hroom, or_true, iff_true]
      refine ⟨fun i hi => ?_, ?_⟩
      · split at hi <;> omega
      · split <;> omega
    · rw [if_neg hroom, if_neg (by omega)]
      simp only [hroom, or_false]
      constructor
      · rintro ⟨-, h⟩
        omega
      · intro h
        rw [h]
        exact ⟨fun i hi => absurd hi (Nat.not_lt_zero i), Nat.zero_le _⟩

/-- One descriptor, committed, with id 0 and a block of four bytes, and a text length of 65535. -/
def shortBlock : PrbMap :=
  { countBits := 0, countBits_le := one_entry_bits
    descs := leBytes 8 (2 ^ 62) ++ leBytes 8 8 ++ leBytes 8 12
    descSize := 24, stateVar := 0, lposBegin := 8, lposNext := 16
    infos := List.replicate 8 0 ++ leBytes 2 65535, infoSize := 10, tsNsec := 0, textLen := 8
    sizeBits := 4, sizeBits_le := by decide, textData := List.replicate 16 0x61 }

/-- The text of that record is read far behind the ring. -/
theorem text_outside_short_block : ¬ TextInside shortBlock 0 := by
  have hb : textBlock shortBlock 0 = some (8, 12) := by decide +kernel
  have hs : textSpan shortBlock 0 = some (16, 65535) := by decide +kernel
  intro h
  have := (h _ hb _ hs).2
  omega

/-! ## The ids -/

/-- How far the head is ahead, modulo the number of ids. -/
def idsToHead (head id : Nat) : Nat := (head + 2 ^ 62 - id) % 2 ^ 62

/-- **The ids the loop visits**: from its start up to the head. -/
theorem visitIds_eq (hh : head < 2 ^ 62) : ∀ (d id fuel : Nat), id < 2 ^ 62 → idsToHead head id = d →
    d < fuel → visitIds head fuel id = some ((List.range (d + 1)).map fun j => (id + j) % 2 ^ 62) := by
  intro d
  induction d with
  | zero =>
    intro id fuel hid hd hf
    obtain ⟨n, rfl⟩ := Nat.exists_eq_succ_of_ne_zero (Nat.ne_of_gt hf)
    unfold idsToHead at hd
    have he : id = head := by omega
    rw [visitIds, if_neg (not_not.2 he)]
    show some [id] = some [(id + 0) % 2 ^ 62]
    rw [Nat.add_zero, Nat.mod_eq_of_lt hid]
  | succ d ih =>
    intro id fuel hid hd hf
    obtain ⟨n, rfl⟩ := Nat.exists_eq_succ_of_ne_zero (Nat.ne_of_gt (Nat.zero_lt_of_lt hf))
    unfold idsToHead at hd
    have hne : id ≠ head := by omega
    have hstep : idsToHead head ((id + 1) % 2 ^ 62) = d := by
      unfold idsToHead
      omega
    rw [visitIds, if_pos hne, ih _ n (Nat.mod_lt _ (by decide)) hstep (by omega),
      @List.range_succ_eq_map (d + 1), List.map_cons, List.map_map, Option.map_some]
    refine congrArg some (List.cons_eq_cons.2 ⟨?_, ?_⟩)
    · rw [Nat.add_zero, Nat.mod_eq_of_lt hid]
    · apply List.map_congr_left
      intro j _
      rw [Function.comp_apply, Nat.mod_add_mod]
      congr 1
      omega

/-- The ids visited, for any number of rounds that is enough. -/
def idsVisited (head id : Nat) : List Nat :=
  (List.range (idsToHead head id + 1)).map fun j => (id + j) % 2 ^ 62

theorem mem_idsVisited (hh : head < 2 ^ 62) (hid : id < 2 ^ 62) {k : Nat} (hk : k < 2 ^ 62) :
    (head + 2 ^ 62 - k) % 2 ^ 62 ∈ idsVisited head id ↔ k ≤ idsToHead head id := by
  unfold idsVisited idsToHead
  rw [List.mem_map]
  constructor
  · rintro ⟨j, hj, he⟩
    rw [List.mem_range] at hj
    omega
  · intro h
    refine ⟨(head + 2 ^ 62 - id) % 2 ^ 62 - k, ?_, ?_⟩
    · rw [List.mem_range]
      omega
    · omega

theorem idsVisited_window (hh : head < 2 ^ 62) (hid : id < 2 ^ 62) {x : Nat}
    (hx : x ∈ idsVisited head id) :
    x < 2 ^ 62 ∧ ∃ k ≤ idsToHead head id, (x + k) % 2 ^ 62 = head := by
  unfold idsVisited at hx
  rw [List.mem_map] at hx
  obtain ⟨j, hj, rfl⟩ := hx
  rw [List.mem_range] at hj
  refine ⟨Nat.mod_lt _ (by decide), idsToHead head id - j, by omega, ?_⟩
  unfold idsToHead at hj ⊢
  omega

theorem getLast?_idsVisited (hh : head < 2 ^ 62) (hid : id < 2 ^ 62) :
    (idsVisited head id).getLast? = some head := by
  unfold idsVisited
  rw [List.range_succ, List.map_append, List.map_singleton, List.getLast?_concat]
  congr 1
  unfold idsToHead
  omega

/-- **What is asked of the loop** with `clear_seq`, when the head has the sequence number `headSeq`:
it visits at most as many ids as the ring has entries, all of them in the ring's length up to the
head, and the head last; and it visits every record from the tail on whose sequence number is not
before `clear_seq`. -/
def VisitsCleared (m : PrbMap) (tail head headSeq clearSeq : Nat) : Prop :=
  ∃ ids, (∃ rounds, ∀ fuel ≥ rounds,
      visitIds head fuel (startId m tail head (some clearSeq)) = some ids) ∧
    ids.length ≤ m.descRingCount ∧
    (∀ x ∈ ids, x < 2 ^ 62 ∧ ∃ k < m.descRingCount, (x + k) % 2 ^ 62 = head) ∧
    ids.getLast? = some head ∧
    ∀ k ≤ idsToHead head tail, clearSeq ≤ headSeq - k → (head + 2 ^ 62 - k) % 2 ^ 62 ∈ ids

theorem descRingCount_eq (m : PrbMap) : m.descRingCount = 2 ^ m.countBits :=
  Nat.one_shiftLeft _

theorem descRingCount_dvd (m : PrbMap) : m.descRingCount ∣ 2 ^ 62 := by
  rw [descRingCount_eq]
  exact Nat.pow_dvd_pow 2 (by have := m.countBits_le; omega)

theorem descRingCount_le (m : PrbMap) : m.descRingCount ≤ 2 ^ 30 := by
  rw [descRingCount_eq]
  exact Nat.pow_le_pow_right (by decide) m.countBits_le

theorem descRingCount_pos (m : PrbMap) : 0 < m.descRingCount := by
  rw [descRingCount_eq]
  exact Nat.two_pow_pos _

/-- The start is an id, `head % n - clear % n` before the head or as much behind it. -/
theorem startId_cleared (m : PrbMap) (tail : Nat) (hh : head < 2 ^ 62) (clearSeq : Nat) :
    startId m tail head (some clearSeq) < 2 ^ 62 ∧
      (clearSeq % m.descRingCount ≤ head % m.descRingCount →
        idsToHead head (startId m tail head (some clearSeq)) =
          head % m.descRingCount - clearSeq % m.descRingCount) ∧
      (head % m.descRingCount < clearSeq % m.descRingCount →
        m.descRingCount ≤ idsToHead head (startId m tail head (some clearSeq))) := by
  have hn := descRingCount_pos m
  have hn' := descRingCount_le m
  obtain ⟨laps, hlaps⟩ := descRingCount_dvd m
  have hr := Nat.mod_lt clearSeq hn
  have hdiv := Nat.div_add_mod head m.descRingCount
  have hlt : head / m.descRingCount < laps := Nat.div_lt_of_lt_mul (by rw [← hlaps]; exact hh)
  -- the lap of the head ends before the last id
  have hlap : m.descRingCount * (head / m.descRingCount) + m.descRingCount ≤ 2 ^ 62 := by
    rw [hlaps, ← Nat.mul_succ]
    exact Nat.mul_le_mul_left _ hlt
  unfold startId idsToHead
  dsimp only
  generalize m.descRingCount * (head / m.descRingCount) = a at hdiv hlap
  generalize head % m.descRingCount = h at hdiv ⊢
  generalize clearSeq % m.descRingCount = r at hr ⊢
  refine ⟨by omega, fun h => by omega, fun h => by omega⟩

theorem visitsCleared_iff_distance (m : PrbMap) (tail headSeq clearSeq : Nat) (hh : head < 2 ^ 62)
    (ht : idsToHead head tail < m.descRingCount) :
    VisitsCleared m tail head headSeq clearSeq ↔
      idsToHead head (startId m tail head (some clearSeq)) < m.descRingCount ∧
        ∀ k ≤ idsToHead head tail, clearSeq ≤ headSeq - k →
          k ≤ idsToHead head (startId m tail head (some clearSeq)) := by
  obtain ⟨hs, -, -⟩ := startId_cleared m tail hh clearSeq
  have hn := descRingCount_le m
  unfold VisitsCleared
  generalize startId m tail head (some clearSeq) = start at hs ⊢
  have hvisit := fun fuel => visitIds_eq hh _ start fuel hs rfl
  have hmem : ∀ k ≤ idsToHead head tail, ((head + 2 ^ 62 - k) % 2 ^ 62 ∈ idsVisited head start ↔
      k ≤ idsToHead head start) := fun k hk => mem_idsVisited hh hs (by omega)
  constructor
  · rintro ⟨ids, ⟨rounds, hrounds⟩, hlen, -, -, hall⟩
    have hids := hrounds (rounds + idsToHead head start + 1) (by omega)
    rw [hvisit _ (by omega), Option.some.injEq] at hids
    subst hids
    rw [List.length_map, List.length_range] at hlen
    exact ⟨hlen, fun k hk hc => (hmem k hk).1 (hall k hk hc)⟩
  · rintro ⟨hlt, hall⟩
    refine ⟨idsVisited head start, ⟨idsToHead head start + 1, fun fuel hf => hvisit fuel hf⟩, ?_, ?_,
      getLast?_idsVisited hh hs, fun k hk hc => (hmem k hk).2 (hall k hk hc)⟩
    · unfold idsVisited
      rw [List.length_map, List.length_range]
      exact hlt
    · intro x hx
      obtain ⟨h1, k, hk, he⟩ := idsVisited_window hh hs hx
      exact ⟨h1, k, by omega, he⟩

/-- Which of the records from `head - T` on are asked for, in laps of the ring. -/
theorem asked_records {n S T c h r : Nat} (hn : 0 < n) (hS : S % n = h) (hc : c % n = r)
    (hrh : r ≤ h) (hT : T ≤ S) :
    (∀ k ≤ T, c ≤ S - k → k ≤ h - r) ↔ S < c ∨ T ≤ h - r ∨ c / n = S / n := by
  have h1 := Nat.div_add_mod S n
  have h2 := Nat.div_add_mod c n
  have hh := Nat.mod_lt S hn
  rw [hS] at h1 hh
  rw [hc] at h2
  have hlap : ∀ a b, a < b → n * a + n ≤ n * b := fun a b hab => by
    rw [← Nat.mul_succ]
    exact Nat.mul_le_mul_left n hab
  constructor
  · intro hall
    by_contra hcon
    have hcS : c ≤ S := by omega
    have hne : c / n ≠ S / n := by omega
    have hlt : c / n < S / n := by
      rcases Nat.lt_or_gt_of_ne hne with hlt | hgt
      · exact hlt
      · have := hlap _ _ hgt
        omega
    have hstep := hlap _ _ hlt
    have := hall (h - r + 1) (by omega) (by omega)
    omega
  · rintro (hlt | hle | heq) k hk hck
    · omega
    · omega
    · rw [heq] at h2
      omega

/-- **Exactly when the loop visits what is asked**, for a head and a tail less than a lap apart and a
sequence number of the head that has its place in the ring: `clear_seq` has a place in the ring not
behind the head's, and it is after the head, or the records before its place are gone, or it is in the
lap of the head. -/
theorem partial_ok_iff (m : PrbMap) (tail head headSeq clearSeq : Nat) (hh : head < 2 ^ 62)
    (ht : idsToHead head tail < m.descRingCount)
    (hseq : headSeq % m.descRingCount = head % m.descRingCount) (hle : idsToHead head tail ≤ headSeq) :
    VisitsCleared m tail head headSeq clearSeq ↔
      clearSeq % m.descRingCount ≤ head % m.descRingCount ∧
        (headSeq < clearSeq ∨
          idsToHead head tail ≤ head % m.descRingCount - clearSeq % m.descRingCount ∨
          clearSeq / m.descRingCount = headSeq / m.descRingCount) := by
  rw [visitsCleared_iff_distance m tail headSeq clearSeq hh ht]
  obtain ⟨-, hbefore, hbehind⟩ := startId_cleared m tail hh clearSeq
  have hn := descRingCount_pos m
  have hlt := Nat.mod_lt head hn
  by_cases hrh : clearSeq % m.descRingCount ≤ head % m.descRingCount
  · rw [hbefore hrh, asked_records hn hseq rfl hrh hle]
    simp only [hrh, true_and, and_iff_right_iff_imp]
    intro _
    omega
  · have := hbehind (by omega)
    constructor
    · rintro ⟨h, -⟩
      omega
    · rintro ⟨h, -⟩
      exact absurd h hrh

/-- A ring of eight descriptors. -/
def eightDescs : PrbMap :=
  { countBits := 3, countBits_le := by decide, descs := [], descSize := 24, stateVar := 0
    lposBegin := 8, lposNext := 16, infos := [], infoSize := 10, tsNsec := 0, textLen := 8
    sizeBits := 4, sizeBits_le := by decide, textData := [] }

/-- `clear_seq` two records before the head, in its lap. -/
theorem partial_ok_same_lap : VisitsCleared eightDescs 6 13 13 11 :=
  (partial_ok_iff eightDescs 6 13 13 11 (by decide) (by decide) (by decide) (by decide)).2
    (by decide)

/-- `clear_seq` four records before the head, in the lap before it: the loop starts behind the head
and goes through almost all ids. -/
theorem partial_not_ok_last_lap : idsToHead 11 4 < eightDescs.descRingCount ∧
    11 % eightDescs.descRingCount = 11 % eightDescs.descRingCount ∧
    ¬ VisitsCleared eightDescs 4 11 11 7 := by
  refine ⟨by decide, rfl, ?_⟩
  rw [visitsCleared_iff_distance eightDescs 4 11 7 (by decide) (by decide)]
  rintro ⟨h, -⟩
  exact absurd h (by decide)

end Dmesg
