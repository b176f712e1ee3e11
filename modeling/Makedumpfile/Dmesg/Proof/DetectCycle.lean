import Makedumpfile.Dmesg.DetectCycle

/-!
# The detector finds the cycle

Before a cycle is reported the anchor is at some place `s` of the list and `power` is `s + 2`
(`DcInv`). The call that reaches place `k + 1` reports exactly when the anchor is in the cycle and
`k + 1` is one round behind it (`dcCall_eq_none_iff`), so `length` is then the length of the cycle,
and this happens within three times the number of entries (`DcInv.calls_le`).
-/

namespace Dmesg

open Lib

variable {α : Type*} {next : α → α} {head : α} {μ l k s fuel : Nat}

/-- After `k` calls, none of which reported a cycle, with the anchor at place `s`. -/
structure DcInv (next : α → α) (head : α) (μ l k s : Nat) (dc : DetectCycle α) : Prop where
  head_eq : dc.head = head
  fast : dc.fastP = next^[k] head
  slow : dc.slowP = next^[s] head
  le : s ≤ k
  length : dc.length = k - s
  power : dc.power = s + 2
  length_le : k - s ≤ s + 2
  -- in the cycle the walk has not come back to the anchor
  round : μ ≤ s → k - s < l
  anchor_le : s ≤ 2 * (μ + l)

theorem dcInv_init (h : Rho next head μ l) : DcInv next head μ l 0 0 (dcInit head) where
  head_eq := rfl
  fast := rfl
  slow := rfl
  le := Nat.le_refl _
  length := rfl
  power := rfl
  length_le := Nat.zero_le _
  round _ := h.pos
  anchor_le := Nat.zero_le _

/-- Moving the anchor keeps the invariant; afterwards there is room for another entry. -/
theorem DcInv.moveAnchor {dc : DetectCycle α} (h : DcInv next head μ l k s dc) (hl : 0 < l) :
    ∃ s, DcInv next head μ l k s dc.moveAnchor ∧ k - s < s + 2 := by
  unfold DetectCycle.moveAnchor
  have hle := h.length_le
  have hs := h.le
  by_cases hp : dc.length = dc.power
  · rw [if_pos hp]
    rw [h.length, h.power] at hp
    -- the anchor was before the cycle, or `power` was too short for it
    have hround := h.round
    refine ⟨k, ⟨h.head_eq, h.fast, h.fast, Nat.le_refl _, (Nat.sub_self k).symm, ?_, ?_, ?_, ?_⟩,
      ?_⟩
    · show dc.power * 2 = k + 2
      rw [h.power]
      omega
    · omega
    · omega
    · by_cases hμ : μ ≤ s
      · have := hround hμ
        omega
      · omega
    · omega
  · rw [if_neg hp]
    rw [h.length, h.power] at hp
    exact ⟨s, h, by omega⟩

/-- No overflow of `power`: it is bounded by the number of entries. -/
theorem DcInv.power_le {dc : DetectCycle α} (h : DcInv next head μ l k s dc) :
    dc.power ≤ 2 * (μ + l + 1) := by
  have := h.anchor_le
  rw [h.power]
  omega

/-- Without a report there were not many calls. -/
theorem DcInv.calls_le {dc : DetectCycle α} (h : DcInv next head μ l k s dc) :
    k ≤ 3 * (μ + l) + 2 := by
  have h1 := h.anchor_le
  have h2 := h.length_le
  have h3 := h.round
  by_cases hμ : μ ≤ s
  · have := h3 hμ
    omega
  · omega

variable [DecidableEq α]

/-- **A call** gives the next entry, or reports a cycle after its first round from the anchor. -/
theorem DcInv.dcNext {dc : DetectCycle α} (hr : Rho next head μ l)
    (h : DcInv next head μ l k s dc) :
    ((Dmesg.dcNext next dc).1 = some (next^[k + 1] head) ∧
        ∃ s, DcInv next head μ l (k + 1) s (Dmesg.dcNext next dc).2) ∨
      ((Dmesg.dcNext next dc).1 = none ∧ (Dmesg.dcNext next dc).2.length = l ∧
        (Dmesg.dcNext next dc).2.head = head ∧ μ + l ≤ k + 1) := by
  obtain ⟨s, h, hroom⟩ := h.moveAnchor hr.pos
  unfold Dmesg.dcNext
  generalize dc.moveAnchor = dc at h
  have hs := h.le
  have hfast : next dc.fastP = next^[k + 1] head := by
    rw [h.fast, Function.iterate_succ_apply']
  dsimp only
  rw [h.slow, hfast]
  by_cases he : next^[s] head = next^[k + 1] head
  · right
    rw [if_pos he]
    rcases (hr.iterate_eq_iff (by omega)).1 he with heq | ⟨hμ, hd⟩
    · omega
    · have := h.round hμ
      have := Nat.le_of_dvd (by omega) hd
      refine ⟨rfl, ?_, h.head_eq, by omega⟩
      rw [h.length]
      omega
  · left
    rw [if_neg he]
    refine ⟨rfl, s, h.head_eq, rfl, rfl, by omega, ?_, h.power, by omega, ?_, h.anchor_le⟩
    · show dc.length + 1 = k + 1 - s
      rw [h.length]
      omega
    · intro hμ
      have := h.round hμ
      have hne : k + 1 - s ≠ l := by
        intro hl
        exact he ((hr.iterate_eq_iff (by omega)).2 (.inr ⟨hμ, hl ▸ Nat.dvd_refl _⟩))
      omega

/-- **The calls**: either all of the first `k` gave the next entry, or an earlier one reported. -/
theorem dcAfter_inv (hr : Rho next head μ l) (k : Nat)
    (h : ∀ j < k, dcCall next head j ≠ none) :
    (∃ s, DcInv next head μ l k s (dcAfter next head k)) ∧
      ∀ j < k, dcCall next head j = some (next^[j + 1] head) := by
  induction k with
  | zero => exact ⟨⟨0, dcInv_init hr⟩, fun j hj => absurd hj (Nat.not_lt_zero j)⟩
  | succ k ih =>
    obtain ⟨⟨s, hinv⟩, hcalls⟩ := ih fun j hj => h j (by omega)
    rcases hinv.dcNext hr with ⟨h1, h2⟩ | ⟨h1, -⟩
    · refine ⟨h2, fun j hj => ?_⟩
      by_cases hjk : j = k
      · rw [hjk]
        exact h1
      · exact hcalls j (by omega)
    · exact absurd h1 (h k (by omega))

/-- Some call reports a cycle. -/
theorem exists_report (hr : Rho next head μ l) : ∃ n, dcCall next head n = none := by
  by_contra hc
  have hall : ∀ j, dcCall next head j ≠ none := fun j hj => hc ⟨j, hj⟩
  obtain ⟨⟨s, hinv⟩, -⟩ := dcAfter_inv hr (3 * (μ + l) + 3) fun j _ => hall j
  have := hinv.calls_le
  omega

/-- **The first report**: until then the calls gave the entries in order. -/
theorem exists_first_report (hr : Rho next head μ l) :
    ∃ n, (∀ j < n, dcCall next head j = some (next^[j + 1] head)) ∧ dcCall next head n = none ∧
      (dcAfter next head (n + 1)).length = l ∧ (dcAfter next head (n + 1)).head = head ∧
      μ + l ≤ n + 1 := by
  classical
  have hex := exists_report hr
  have hbefore : ∀ j < Nat.find hex, dcCall next head j ≠ none := fun j hj => Nat.find_min hex hj
  obtain ⟨⟨s, hinv⟩, hcalls⟩ := dcAfter_inv hr (Nat.find hex) hbefore
  have hnone := Nat.find_spec hex
  refine ⟨Nat.find hex, hcalls, hnone, ?_⟩
  rcases hinv.dcNext hr with ⟨h1, -⟩ | ⟨-, h2⟩
  · rw [dcCall, h1] at hnone
    cases hnone
  · exact h2

/-- Both pointers go on until they meet where the cycle begins. -/
theorem findStartLoop_eq (hr : Rho next head μ l) : ∀ (d i : Nat), i + d = μ → d < fuel →
    findStartLoop next (next^[i] head) (next^[i + l] head) fuel = some (next^[μ] head) := by
  intro d
  induction d generalizing fuel with
  | zero =>
    intro i hi hf
    obtain ⟨n, rfl⟩ := Nat.exists_eq_succ_of_ne_zero (Nat.ne_of_gt hf)
    have hi : i = μ := hi
    rw [findStartLoop, hi, hr.period]
    simp
  | succ d ih =>
    intro i hi hf
    obtain ⟨n, rfl⟩ := Nat.exists_eq_succ_of_ne_zero (Nat.ne_of_gt (Nat.zero_lt_of_lt hf))
    have hne : next^[i] head ≠ next^[i + l] head := by
      intro he
      have := hr.pos
      rcases (hr.iterate_eq_iff (by omega)).1 he with h | ⟨h, -⟩ <;> omega
    rw [findStartLoop, if_pos hne, ← Function.iterate_succ_apply' next,
      ← Function.iterate_succ_apply' next, show (i + l).succ = i.succ + l by omega]
    exact ih i.succ (by omega) (by omega)

theorem dcFindStart_eq {dc : DetectCycle α} (hr : Rho next head μ l) (hl : dc.length = l)
    (hh : dc.head = head) (hf : μ < fuel) : dcFindStart next dc fuel = some (next^[μ] head, l) := by
  have h := findStartLoop_eq hr μ 0 (Nat.zero_add μ) hf
  rw [Nat.zero_add, Function.iterate_zero, id_eq] at h
  rw [dcFindStart, hl, hh, h]
  rfl

/-- A report means that an entry was seen before. -/
theorem dcCall_of_injective (h : ∀ i j, i < j → j ≤ k → next^[i] head ≠ next^[j] head) :
    ∀ j < k, dcCall next head j = some (next^[j + 1] head) := by
  -- the invariant without a cycle: the walk and its anchor
  have hinv : ∀ n ≤ k, (∀ j < n, dcCall next head j = some (next^[j + 1] head)) ∧
      ∃ s ≤ n, (dcAfter next head n).fastP = next^[n] head ∧
        (dcAfter next head n).slowP = next^[s] head := by
    intro n
    induction n with
    | zero => exact fun _ => ⟨fun j hj => absurd hj (Nat.not_lt_zero j), 0, Nat.le_refl _, rfl, rfl⟩
    | succ n ih =>
      intro hn
      obtain ⟨hcalls, s, hs, hfast, hslow⟩ := ih (by omega)
      obtain ⟨s', hs', hfast', hslow'⟩ : ∃ s' ≤ n,
          (dcAfter next head n).moveAnchor.fastP = next^[n] head ∧
            (dcAfter next head n).moveAnchor.slowP = next^[s'] head := by
        unfold DetectCycle.moveAnchor
        split
        · exact ⟨n, Nat.le_refl _, hfast, hfast⟩
        · exact ⟨s, hs, hfast, hslow⟩
      have hstep : next (dcAfter next head n).moveAnchor.fastP = next^[n + 1] head := by
        rw [hfast', Function.iterate_succ_apply']
      have hcall : dcCall next head n = some (next^[n + 1] head) := by
        unfold dcCall Dmesg.dcNext
        dsimp only
        rw [hslow', hstep, if_neg (h s' (n + 1) (by omega) hn)]
      refine ⟨fun j hj => ?_, s', by omega, hstep, hslow'⟩
      by_cases hjn : j = n
      · rw [hjn]
        exact hcall
      · exact hcalls j (by omega)
  exact (hinv k (Nat.le_refl k)).1

/-- **The detector.** Repeated `dc_next` gives the entries after `head` one by one until it reports a
cycle, which it does; `length` is then the length of the cycle, and `dc_find_start` returns its first
entry and its length. As long as no entry comes twice nothing is reported. -/
theorem detector_finds_cycle [Finite α] (next : α → α) (head : α) :
    (∃ μ l n, Rho next head μ l ∧ (∀ j < n, dcCall next head j = some (next^[j + 1] head)) ∧
      dcCall next head n = none ∧ (dcAfter next head (n + 1)).length = l ∧
      ∃ rounds, ∀ fuel ≥ rounds,
        dcFindStart next (dcAfter next head (n + 1)) fuel = some (next^[μ] head, l)) ∧
    ∀ k, (∀ i j, i < j → j ≤ k → next^[i] head ≠ next^[j] head) →
      ∀ j < k, dcCall next head j = some (next^[j + 1] head) := by
  obtain ⟨μ, l, hr⟩ := exists_rho_of_finite next head
  obtain ⟨n, hcalls, hnone, hlen, hhead, -⟩ := exists_first_report hr
  refine ⟨⟨μ, l, n, hr, hcalls, hnone, hlen, μ + 1, fun fuel hf => ?_⟩,
    fun k hk => dcCall_of_injective hk⟩
  exact dcFindStart_eq hr hlen hhead hf

/-- A list of five entries whose last leads back to the third. -/
def backToThird (i : Fin 5) : Fin 5 := if i = 4 then 2 else i + 1

theorem detector_finds_cycle_five :
    ∃ μ l n, Rho backToThird 0 μ l ∧ dcCall backToThird 0 n = none ∧
      ∃ rounds, ∀ fuel ≥ rounds,
        dcFindStart backToThird (dcAfter backToThird 0 (n + 1)) fuel = some (backToThird^[μ] 0, l) := by
  obtain ⟨⟨μ, l, n, hr, -, hn, -, hfind⟩, -⟩ := detector_finds_cycle backToThird 0
  exact ⟨μ, l, n, hr, hn, hfind⟩

end Dmesg
