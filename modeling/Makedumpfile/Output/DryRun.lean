import Mathlib.Algebra.Group.Nat.Defs
import Makedumpfile.Output.Write
import Mathlib.Data.List.Basic

/-!
# Dry runs

With `flag_dry_run` nothing is written, and `write_and_check_space` compares the size limit with the
number of bytes written so far, where a real run compares it with the position in the file. So the real
run fails at the first call that ends behind the limit (`runCalls_real`), the dry run at the first with
which the total is more than the limit (`runCalls_dry`), and **the dry run predicts the real one for
every limit** exactly if the calls append (`dry_run_iff`).
-/

namespace Output

open Lib

/-- `write_buffer` calls, each an offset and its data, up to the first that fails: what they return. -/
def runCalls (c : Opts) : List (Nat × List UInt8) → Out → List Bool × Out
  | [], o => ([], o)
  | w :: ws, o =>
    match writeBuffer c .file w.1 w.2 o with
    | (false, o) => ([false], o)
    | (true, o) =>
      let r := runCalls c ws o
      (true :: r.1, r.2)

/-- The options of a run with a size limit. -/
def limitOpts (limit : Nat) (dry : Bool) : Opts := { sizeLimit := some limit, flagDryRun := dry }

/-- **The dry run predicts the real one**, from any state of the output before the first byte is
written, as long as the disk has space. -/
def Predicts (limit : Nat) (ws : List (Nat × List UInt8)) : Prop :=
  ∀ o : Out, o.writeBytes = 0 → (∀ r ∈ o.sys, r.good = true) →
    (runCalls (limitOpts limit true) ws o).1 = (runCalls (limitOpts limit false) ws o).1 ∧
      (runCalls (limitOpts limit true) ws o).2.flagNospace =
        (runCalls (limitOpts limit false) ws o).2.flagNospace

/-! ## The first call that fails -/

/-- The first call with data that ends behind the limit. -/
def firstBehind (limit : Nat) : List (Nat × List UInt8) → Option Nat
  | [] => none
  | w :: ws =>
    if w.2 ≠ [] ∧ limit < w.1 + w.2.length then some 0 else (firstBehind limit ws).map (· + 1)

/-- The first call with data with which the total is more than the limit; `total` is what was written
before. -/
def firstOver (limit : Nat) : Nat → List (Nat × List UInt8) → Option Nat
  | _, [] => none
  | total, w :: ws =>
    if w.2 ≠ [] ∧ limit < total + w.2.length then some 0
    else (firstOver limit (total + w.2.length) ws).map (· + 1)

/-- What `n` calls return whose first failure is the given one. -/
def returns (n : Nat) : Option Nat → List Bool
  | none => List.replicate n true
  | some i => List.replicate i true ++ [false]

theorem returns_inj {n : Nat} {x y : Option Nat} (hx : returns n x = returns n y) : x = y := by
  have hlen := congrArg List.length hx
  have hall : ∀ z, (returns n z).all id = z.isNone := by
    intro z
    cases z with
    | none => simp [returns]
    | some i => simp [returns]
  have hnone := (hall x).symm.trans ((congrArg (List.all · id) hx).trans (hall y))
  cases x with
  | none =>
    cases y with
    | none => rfl
    | some j => cases hnone
  | some i =>
    cases y with
    | none => cases hnone
    | some j =>
      simp only [returns, List.length_append, List.length_replicate, List.length_cons,
        List.length_nil] at hlen
      rw [show i = j by omega]

/-! ## The two runs -/

variable {limit : Nat}

/-- A write that is cut at the limit is complete only if it is empty. -/
theorem cut_eq {pos : Nat} {buf : List UInt8} (h : limit < pos + buf.length) :
    (limit - pos == buf.length) = !decide (buf ≠ [] ∧ limit < pos + buf.length) := by
  cases buf with
  | nil =>
    simp only [List.length_nil, Nat.add_zero] at h ⊢
    rw [Nat.sub_eq_zero_of_le (Nat.le_of_lt h)]
    simp
  | cons b buf =>
    rw [decide_eq_true ⟨List.cons_ne_nil b buf, h⟩, Bool.not_true, beq_eq_false_iff_ne]
    rw [List.length_cons] at h ⊢
    omega

/-- A call of a real run. -/
theorem writeBuffer_real (limit : Nat) (w : Nat × List UInt8) {o : Out} (hs : ∀ r ∈ o.sys, r.good = true) :
    ∃ o', writeBuffer (limitOpts limit false) .file w.1 w.2 o =
        (!decide (w.2 ≠ [] ∧ limit < w.1 + w.2.length), o') ∧
      o'.flagNospace = (o.flagNospace || decide (limit < w.1 + w.2.length)) ∧
      ∀ r ∈ o'.sys, r.good = true := by
  obtain ⟨off, buf⟩ := w
  unfold writeBuffer writeAndCheckSpace limitOpts
  by_cases hbeyond : limit < off + buf.length
  · obtain ⟨h1, h2, h3⟩ := writeLoop_good o.sys (limit - off) hs
    have hgt : off + buf.length > limit := hbeyond
    refine ⟨_, Prod.ext ?_ rfl, ?_, ?_⟩
    · simp only [hgt, if_true, h1, Bool.false_eq_true, if_false, or_self, reduceCtorEq]
      rw [cut_eq hbeyond]
      simp [hbeyond]
    · simp [hgt, h2]
    · simpa [hgt] using h3
  · obtain ⟨h1, h2, h3⟩ := writeLoop_good o.sys buf.length hs
    have hle : ¬ off + buf.length > limit := hbeyond
    refine ⟨_, Prod.ext ?_ rfl, ?_, ?_⟩
    · simp [hle, h1]
    · simp [hle, h2]
    · simpa [hle] using h3

/-- A call of a dry run. -/
theorem writeBuffer_dry (limit : Nat) (w : Nat × List UInt8) (o : Out) :
    ∃ o', writeBuffer (limitOpts limit true) .file w.1 w.2 o =
        (!decide (w.2 ≠ [] ∧ limit < o.writeBytes + w.2.length), o') ∧
      o'.flagNospace = (o.flagNospace || decide (limit < o.writeBytes + w.2.length)) ∧
      (¬ (w.2 ≠ [] ∧ limit < o.writeBytes + w.2.length) →
        o'.writeBytes = o.writeBytes + w.2.length) := by
  obtain ⟨off, buf⟩ := w
  unfold writeBuffer writeAndCheckSpace limitOpts
  by_cases hbeyond : limit < o.writeBytes + buf.length
  · have hgt : o.writeBytes + buf.length > limit := hbeyond
    refine ⟨_, Prod.ext ?_ rfl, ?_, ?_⟩
    · simp only [hgt, if_true, or_true]
      rw [cut_eq hbeyond]
      simp [hbeyond]
    · simp [hgt]
    · intro hno
      have hnil : buf = [] := by
        apply Classical.byContradiction
        intro hne
        exact hno ⟨hne, hbeyond⟩
      subst hnil
      simp only [List.length_nil, Nat.add_zero] at hbeyond
      simp [hbeyond, Nat.le_of_lt hbeyond]
  · have hle : ¬ o.writeBytes + buf.length > limit := hbeyond
    refine ⟨_, Prod.ext ?_ rfl, ?_, ?_⟩
    · simp [hle]
    · simp [hle]
    · simp [hle]

/-- **A real run** fails at the first call with data that ends behind the limit; an empty call there
only sets `flag_nospace`. -/
theorem runCalls_real (limit : Nat) : ∀ (ws : List (Nat × List UInt8)) {o : Out}, (∀ r ∈ o.sys, r.good = true) →
    (runCalls (limitOpts limit false) ws o).1 = returns ws.length (firstBehind limit ws) ∧
    (runCalls (limitOpts limit false) ws o).2.flagNospace =
      (o.flagNospace || (firstBehind limit ws).isSome ||
        ws.any fun w => decide (limit < w.1 + w.2.length))
  | [], o, _ => by simp [runCalls, firstBehind, returns]
  | w :: ws, o, hs => by
    obtain ⟨o', hcall, hflag, hs'⟩ := writeBuffer_real limit w hs
    rw [runCalls, hcall, firstBehind]
    by_cases hfail : w.2 ≠ [] ∧ limit < w.1 + w.2.length
    · rw [if_pos hfail, decide_eq_true hfail]
      refine ⟨rfl, ?_⟩
      simp [hflag, hfail.2]
    · obtain ⟨ih1, ih2⟩ := runCalls_real limit ws hs'
      rw [if_neg hfail, decide_eq_false hfail]
      simp only [Bool.not_false]
      rw [ih1, ih2, hflag]
      refine ⟨?_, ?_⟩
      · cases firstBehind limit ws with
        | none => rfl
        | some i => rfl
      · rw [Option.isSome_map, List.any_cons]
        simp only [Bool.or_assoc, Bool.or_left_comm]

/-- **A dry run** fails at the first call with data with which the total is more than the limit. -/
theorem runCalls_dry (limit : Nat) : ∀ (ws : List (Nat × List UInt8)) {o : Out}, o.writeBytes ≤ limit →
    (runCalls (limitOpts limit true) ws o).1 = returns ws.length (firstOver limit o.writeBytes ws) ∧
    (runCalls (limitOpts limit true) ws o).2.flagNospace =
      (o.flagNospace || (firstOver limit o.writeBytes ws).isSome)
  | [], o, _ => by simp [runCalls, firstOver, returns]
  | w :: ws, o, hle => by
    obtain ⟨o', hcall, hflag, hbytes⟩ := writeBuffer_dry limit w o
    rw [runCalls, hcall, firstOver]
    by_cases hfail : w.2 ≠ [] ∧ limit < o.writeBytes + w.2.length
    · rw [if_pos hfail, decide_eq_true hfail]
      refine ⟨rfl, ?_⟩
      simp [hflag, hfail.2]
    · have hin : o.writeBytes + w.2.length ≤ limit := by
        by_cases hnil : w.2 = []
        · rw [hnil]
          simpa using hle
        · by_contra hc
          exact hfail ⟨hnil, by omega⟩
      have hb := hbytes hfail
      obtain ⟨ih1, ih2⟩ := runCalls_dry limit ws (o := o') (by omega)
      rw [hb] at ih1 ih2
      rw [if_neg hfail, decide_eq_false hfail]
      simp only [Bool.not_false]
      rw [ih1, ih2, hflag, decide_eq_false (by omega), Bool.or_false]
      refine ⟨?_, ?_⟩
      · cases firstOver limit (o.writeBytes + w.2.length) ws with
        | none => rfl
        | some i => rfl
      · rw [Option.isSome_map]

/-! ## When they agree -/

/-- The first call behind the limit is the first over it; and when there is none, no empty call is
behind the limit. -/
def SameCall (limit : Nat) (ws : List (Nat × List UInt8)) : Prop :=
  firstBehind limit ws = firstOver limit 0 ws ∧
    (firstBehind limit ws = none → ∀ w ∈ ws, w.1 + w.2.length ≤ limit)

theorem predicts_iff (limit : Nat) (ws : List (Nat × List UInt8)) :
    Predicts limit ws ↔ SameCall limit ws := by
  constructor
  · intro h
    obtain ⟨h1, h2⟩ := h {} rfl (by simp)
    obtain ⟨r1, r2⟩ := runCalls_real limit ws (o := {}) (by simp)
    obtain ⟨d1, d2⟩ := runCalls_dry limit ws (o := {}) (Nat.zero_le _)
    rw [r1, d1] at h1
    have heq := returns_inj h1
    refine ⟨heq.symm, fun hnone w hw => ?_⟩
    rw [r2, d2, heq, hnone] at h2
    simp only [Option.isSome_none, Bool.or_false, Bool.false_or] at h2
    have := (List.any_eq_false.1 h2.symm) w hw
    simpa using this
  · rintro ⟨heq, hall⟩ o hbytes hs
    obtain ⟨r1, r2⟩ := runCalls_real limit ws hs
    obtain ⟨d1, d2⟩ := runCalls_dry limit ws (o := o) (by omega)
    rw [r1, r2, d1, d2, hbytes, ← heq]
    refine ⟨rfl, ?_⟩
    cases hf : firstBehind limit ws with
    | none =>
      have hno : (ws.any fun w => decide (limit < w.1 + w.2.length)) = false := by
        rw [List.any_eq_false]
        intro w hw
        have := hall hf w hw
        simpa using this
      rw [hno]
      simp
    | some i => simp

/-- How many bytes the calls write. -/
def totalBytes (ws : List (Nat × List UInt8)) : Nat := (ws.map fun w => w.2.length).sum

/-- Every call with data writes where the bytes before it end. -/
def Sequential : Nat → List (Nat × List UInt8) → Prop
  | _, [] => True
  | total, w :: ws => (w.2 ≠ [] → w.1 = total) ∧ Sequential (total + w.2.length) ws

/-- **The calls append**: each writes at the end of what was written, and no empty call is behind the
end of all of it. -/
def Appends (ws : List (Nat × List UInt8)) : Prop :=
  Sequential 0 ws ∧ ∀ w ∈ ws, w.1 + w.2.length ≤ totalBytes ws

theorem Sequential.firstBehind_eq (limit : Nat) : ∀ {ws : List (Nat × List UInt8)} {total : Nat},
    Sequential total ws → firstBehind limit ws = firstOver limit total ws
  | [], _, _ => rfl
  | w :: ws, total, h => by
    have hcond : (w.2 ≠ [] ∧ limit < w.1 + w.2.length) ↔
        (w.2 ≠ [] ∧ limit < total + w.2.length) :=
      and_congr_right fun hne => by rw [h.1 hne]
    rw [firstBehind, firstOver, h.2.firstBehind_eq limit]
    simp only [hcond]

/-- The calls that are not over the limit are not more than the limit together. -/
theorem totalBytes_le_of_firstOver : ∀ {ws : List (Nat × List UInt8)} {total : Nat},
    total ≤ limit → firstOver limit total ws = none → total + totalBytes ws ≤ limit
  | [], total, h, _ => by simpa [totalBytes] using h
  | w :: ws, total, h, hnone => by
    rw [firstOver] at hnone
    split at hnone
    · cases hnone
    · rename_i hin
      have hle : total + w.2.length ≤ limit := by
        by_cases hnil : w.2 = []
        · rw [hnil]
          simpa using h
        · by_contra hc
          exact hin ⟨hnil, by omega⟩
      have ih := totalBytes_le_of_firstOver hle (Option.map_eq_none_iff.1 hnone)
      simp only [totalBytes, List.map_cons, List.sum_cons] at ih ⊢
      omega

theorem firstOver_total : ∀ (ws : List (Nat × List UInt8)) (total : Nat),
    total + totalBytes ws ≤ limit → firstOver limit total ws = none
  | [], _, _ => rfl
  | w :: ws, total, h => by
    simp only [totalBytes, List.map_cons, List.sum_cons] at h
    have ih := firstOver_total ws (total + w.2.length) (by unfold totalBytes; omega)
    rw [firstOver, if_neg (by rintro ⟨-, hlt⟩; omega), ih]
    rfl

theorem sequential_of_firstBehind : ∀ {ws : List (Nat × List UInt8)} {total : Nat},
    (∀ limit, total ≤ limit → firstBehind limit ws = firstOver limit total ws) →
    Sequential total ws
  | [], _, _ => trivial
  | w :: ws, total, h => by
    have hfirst : ∀ limit, total ≤ limit → ((w.2 ≠ [] ∧ limit < w.1 + w.2.length) ↔
        (w.2 ≠ [] ∧ limit < total + w.2.length)) := by
      intro limit hle
      have hl := h limit hle
      rw [firstBehind, firstOver] at hl
      by_cases h1 : w.2 ≠ [] ∧ limit < w.1 + w.2.length <;>
        by_cases h2 : w.2 ≠ [] ∧ limit < total + w.2.length
      · exact ⟨fun _ => h2, fun _ => h1⟩
      · rw [if_pos h1, if_neg h2] at hl
        cases hx : firstOver limit (total + w.2.length) ws <;> simp [hx] at hl
      · rw [if_neg h1, if_pos h2] at hl
        cases hx : firstBehind limit ws <;> simp [hx] at hl
      · exact ⟨fun hc => absurd hc h1, fun hc => absurd hc h2⟩
    refine ⟨fun hne => ?_, sequential_of_firstBehind fun limit hle => ?_⟩
    · have hpos : 0 < w.2.length := List.length_pos_iff.2 hne
      -- a limit between the two ends
      have h1 := hfirst (total + w.2.length) (by omega)
      have h2 := hfirst (total + w.2.length - 1) (by omega)
      simp only [hne, ne_eq, not_false_eq_true, true_and] at h1 h2
      omega
    · have hl := h limit (by omega)
      have hc := hfirst limit (by omega)
      rw [firstBehind, firstOver, if_neg (by rw [hc]; rintro ⟨-, hlt⟩; omega),
        if_neg (by rintro ⟨-, hlt⟩; omega)] at hl
      exact Option.map_injective (fun a b hab => Nat.succ.inj hab) hl

theorem sameCall_all_iff (ws : List (Nat × List UInt8)) :
    (∀ limit, SameCall limit ws) ↔ Appends ws := by
  constructor
  · intro h
    refine ⟨sequential_of_firstBehind fun limit _ => (h limit).1, (h (totalBytes ws)).2 ?_⟩
    rw [(h (totalBytes ws)).1]
    exact firstOver_total ws _ (by omega)
  · rintro ⟨hseq, hend⟩ limit
    have heq := hseq.firstBehind_eq limit
    refine ⟨heq, fun hnone w hw => ?_⟩
    rw [heq] at hnone
    have htotal := totalBytes_le_of_firstOver (Nat.zero_le _) hnone
    have := hend w hw
    omega

/-- **When the dry run predicts the real one**: for one limit exactly if the first call behind it is
the first over it, and for every limit exactly if the calls append. -/
theorem dry_run_iff (ws : List (Nat × List UInt8)) :
    (∀ limit, Predicts limit ws ↔ SameCall limit ws) ∧ ((∀ limit, Predicts limit ws) ↔ Appends ws) := by
  refine ⟨fun limit => predicts_iff limit ws, ?_⟩
  rw [← sameCall_all_iff]
  exact forall_congr' fun limit => predicts_iff limit ws

/-- A header at the start that is written again. -/
theorem not_predicts_rewritten : ¬ Predicts 4 [(0, [1, 2, 3, 4]), (0, [5, 6, 7, 8])] := by
  intro h
  exact absurd (h {} rfl (by simp)).1 (by decide)

end Output
