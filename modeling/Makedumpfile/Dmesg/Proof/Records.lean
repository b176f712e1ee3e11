import Makedumpfile.Dmesg.Proof.DetectCycle
import Makedumpfile.Dmesg.Records

/-!
# The walk over a corrupted record buffer

Until the detector reports, the walk writes the records of the chain one by one (`walk_steps`). The
second loop starts counting at the first entry of the chain whose record is the first entry of the
cycle (`writeToCorruption_eq`); when that entry is a wrap marker it stands for the record at the start
of the buffer, so no entry of the chain does, and the loop does not end (`writeToCorruption_stuck`).
Two entries of the chain stand for the same record only as the two entries before the cycle's first
one (`entries_of_same_record`); then this record is written twice. `walk_ok_iff` puts these together.
-/

namespace Dmesg

open Lib

variable (g : Log) (firstIdx nextIdx : Nat)

/-- The chain of entries from `log_first_idx`. -/
def chain (i : Nat) : Nat := (logNext g)^[i] firstIdx

/-- The record that an entry of the chain stands for. -/
def chainRecord (i : Nat) : Nat := logFromPtr g (chain g firstIdx i)

/-- The lines of the first `n` entries. -/
def chainLines (n : Nat) : List UInt8 :=
  (List.range n).flatMap fun i => dumpLogEntry g (chainRecord g firstIdx i)

variable {g firstIdx nextIdx} {μ l i j k n fuel : Nat} {out : List UInt8}

theorem chain_succ (i : Nat) : chain g firstIdx (i + 1) = logNext g (chain g firstIdx i) :=
  Function.iterate_succ_apply' _ _ _

theorem chainLines_succ (n : Nat) :
    chainLines g firstIdx (n + 1) =
      chainLines g firstIdx n ++ dumpLogEntry g (chainRecord g firstIdx n) := by
  unfold chainLines
  rw [List.range_succ, List.flatMap_append, List.flatMap_singleton]

/-- A wrap marker is followed like the record it stands for. -/
theorem logNext_logFromPtr (p : Nat) : logNext g (logFromPtr g p) = logNext g p := by
  unfold logFromPtr
  split
  · rename_i h
    unfold logNext
    rw [if_pos h, ite_self]
  · rfl

/-! ## The first loop -/

/-- **The walk** while the detector does not report. -/
theorem walk_steps (hcalls : ∀ j < k, dcCall (logNext g) firstIdx j = some (chain g firstIdx (j + 1)))
    (hnext : ∀ j < k, chain g firstIdx j ≠ nextIdx)
    (hrange : ∀ j < k, g.inRange (chain g firstIdx (j + 1))) (fuel : Nat) :
    dumpDmesg g firstIdx nextIdx (fuel + k) =
      walk g firstIdx nextIdx fuel (chain g firstIdx k) (dcAfter (logNext g) firstIdx k)
        (chainLines g firstIdx k) := by
  induction k generalizing fuel with
  | zero => rfl
  | succ k ih =>
    have hcall := hcalls k (Nat.lt_succ_self k)
    rw [show fuel + (k + 1) = fuel + 1 + k by omega,
      ih (fun j hj => hcalls j (by omega)) (fun j hj => hnext j (by omega))
        (fun j hj => hrange j (by omega)), walk, if_neg (hnext k (by omega))]
    unfold dcCall at hcall
    rcases hstep : dcNext (logNext g) (dcAfter (logNext g) firstIdx k) with ⟨r, dc⟩
    rw [hstep] at hcall
    rw [show r = some (chain g firstIdx (k + 1)) from hcall]
    dsimp only
    rw [if_neg (not_not.2 (hrange k (by omega))), dcAfter, hstep, chainLines_succ]
    rfl

/-- A chain that reaches `log_next_idx` has no entry twice before it. -/
theorem chain_injective (hn : chain g firstIdx n = nextIdx)
    (hfirst : ∀ i < n, chain g firstIdx i ≠ nextIdx) :
    ∀ i j, i < j → j ≤ n → (logNext g)^[i] firstIdx ≠ (logNext g)^[j] firstIdx := by
  intro i j hij hj he
  -- the rest of the way from `j` would also lead there from `i`
  apply hfirst (n - j + i) (by omega)
  rw [← hn, chain, chain, Function.iterate_add_apply, he, ← Function.iterate_add_apply,
    Nat.sub_add_cancel hj]

theorem dumpDmesg_reaches (hn : chain g firstIdx n = nextIdx)
    (hfirst : ∀ i < n, chain g firstIdx i ≠ nextIdx)
    (hrange : ∀ i, g.inRange (chain g firstIdx (i + 1))) (hf : n + 1 ≤ fuel) :
    dumpDmesg g firstIdx nextIdx fuel = some (.done, chainLines g firstIdx n) := by
  obtain ⟨m, rfl⟩ : ∃ m, fuel = m + 1 + n := ⟨fuel - n - 1, by omega⟩
  rw [walk_steps (dcCall_of_injective (chain_injective hn hfirst)) hfirst (fun j _ => hrange j),
    walk, if_pos hn]

/-- A chain in the buffer that never ends runs into a cycle. -/
theorem exists_rho_chain (hrange : ∀ i, g.inRange (chain g firstIdx (i + 1))) :
    ∃ μ l, Rho (logNext g) firstIdx μ l := by
  have hlt : ∀ i, chain g firstIdx (i + 1) < g.buf.length + 1 := by
    intro i
    have := hrange i
    unfold Log.inRange at this
    omega
  obtain ⟨i, j, hne, he⟩ := Finite.exists_ne_map_eq_of_infinite fun i =>
    (⟨chain g firstIdx (i + 1), hlt i⟩ : Fin (g.buf.length + 1))
  have he : chain g firstIdx (i + 1) = chain g firstIdx (j + 1) := Fin.ext_iff.1 he
  rcases Nat.lt_or_gt_of_ne hne with h | h
  · obtain ⟨μ, l, hr, -⟩ := exists_rho (show i + 1 < j + 1 by omega) he
    exact ⟨μ, l, hr⟩
  · obtain ⟨μ, l, hr, -⟩ := exists_rho (show j + 1 < i + 1 by omega) he.symm
    exact ⟨μ, l, hr⟩

/-- After the report the second loop decides what is left in the file. -/
theorem dumpDmesg_cycle (hr : Rho (logNext g) firstIdx μ l)
    (hnext : ∀ i, chain g firstIdx i ≠ nextIdx)
    (hrange : ∀ i, g.inRange (chain g firstIdx (i + 1))) :
    ∃ n, ∀ fuel, μ < fuel → dumpDmesg g firstIdx nextIdx (fuel + 1 + n) =
      (writeToCorruption g (chain g firstIdx μ) fuel firstIdx false l []).map
        fun out => (.cycle, out) := by
  obtain ⟨n, hcalls, hnone, hlen, hhead, -⟩ := exists_first_report hr
  refine ⟨n, fun fuel hf => ?_⟩
  rw [walk_steps hcalls (fun j _ => hnext j) (fun j _ => hrange j), walk, if_neg (hnext n)]
  have hfind := dcFindStart_eq hr hlen hhead hf
  unfold dcCall at hnone
  rw [dcAfter] at hfind
  rcases hstep : dcNext (logNext g) (dcAfter (logNext g) firstIdx n) with ⟨r, dc⟩
  rw [hstep] at hnone hfind
  rw [show r = none from hnone]
  dsimp only
  rw [hfind]
  rfl

/-! ## The second loop -/

/-- In the cycle the loop counts every entry. -/
theorem writeToCorruption_inCycle (first : Nat) : ∀ (len i : Nat), len ≤ fuel →
    writeToCorruption g first fuel (chain g firstIdx i) true len (chainLines g firstIdx i) =
      some (chainLines g firstIdx (i + len)) := by
  intro len
  induction len generalizing fuel with
  | zero =>
    intro i _
    unfold writeToCorruption
    rfl
  | succ len ih =>
    intro i hf
    obtain ⟨m, rfl⟩ := Nat.exists_eq_succ_of_ne_zero (Nat.ne_of_gt (Nat.zero_lt_of_lt hf))
    have := ih (i + 1) (show len ≤ m by omega)
    rw [chain_succ, chainLines_succ] at this
    rw [writeToCorruption]
    simp only [Bool.true_or, ↓reduceIte]
    rw [show i + (len + 1) = i + 1 + len by omega]
    exact this

/-- Before it, the loop only writes. -/
theorem writeToCorruption_before {first len : Nat} (hfirst : ∀ j < i, chainRecord g firstIdx j ≠ first)
    (fuel : Nat) :
    writeToCorruption g first (fuel + i) firstIdx false (len + 1) [] =
      writeToCorruption g first fuel (chain g firstIdx i) false (len + 1)
        (chainLines g firstIdx i) := by
  induction i generalizing fuel with
  | zero => rfl
  | succ i ih =>
    have hi : (logFromPtr g (chain g firstIdx i) == first) = false :=
      beq_eq_false_iff_ne.2 (hfirst i (by omega))
    rw [show fuel + (i + 1) = fuel + 1 + i by omega, ih (fun j hj => hfirst j (by omega)),
      writeToCorruption, chain_succ, chainLines_succ]
    simp only [hi, Bool.or_false, Bool.false_eq_true, ↓reduceIte]
    rfl

/-- **The second loop** ends after the first round of the cycle from the entry whose record is
`first`. -/
theorem writeToCorruption_eq {first : Nat} (hl : 0 < l) (hi : chainRecord g firstIdx i = first)
    (hfirst : ∀ j < i, chainRecord g firstIdx j ≠ first) (hf : i + l ≤ fuel) :
    writeToCorruption g first fuel firstIdx false l [] = some (chainLines g firstIdx (i + l)) := by
  obtain ⟨len, rfl⟩ := Nat.exists_eq_succ_of_ne_zero (Nat.ne_of_gt hl)
  obtain ⟨m, rfl⟩ : ∃ m, fuel = m + 1 + i := ⟨fuel - 1 - i, by omega⟩
  have hb : (logFromPtr g (chain g firstIdx i) == first) = true := beq_iff_eq.2 hi
  have hrest := @writeToCorruption_inCycle g firstIdx m first len (i + 1) (by omega)
  rw [chain_succ, chainLines_succ] at hrest
  rw [writeToCorruption_before hfirst, writeToCorruption]
  simp only [hb, Bool.or_true, ↓reduceIte]
  rw [show i + len.succ = i + 1 + len by omega]
  exact hrest

/-- It does not end when no entry stands for the record `first`. -/
theorem writeToCorruption_stuck {first : Nat} (hfirst : ∀ j, chainRecord g firstIdx j ≠ first)
    (hl : 0 < l) (fuel : Nat) : writeToCorruption g first fuel firstIdx false l [] = none := by
  obtain ⟨len, rfl⟩ := Nat.exists_eq_succ_of_ne_zero (Nat.ne_of_gt hl)
  have := @writeToCorruption_before g firstIdx fuel first len (fun j _ => hfirst j) 0
  rw [Nat.zero_add] at this
  rw [this, writeToCorruption]

/-! ## The records of the chain -/

/-- Two entries of the chain stand for one record only at the two ways into the cycle. -/
theorem entries_of_same_record (hr : Rho (logNext g) firstIdx μ l) (hij : i < j) (hj : j < μ + l)
    (h : chainRecord g firstIdx i = chainRecord g firstIdx j) : i + 1 = μ ∧ j + 1 = μ + l := by
  have hs : chain g firstIdx (i + 1) = chain g firstIdx (j + 1) := by
    rw [chain_succ, chain_succ, ← logNext_logFromPtr (chain g firstIdx i),
      ← logNext_logFromPtr (chain g firstIdx j)]
    exact congrArg (logNext g) h
  rcases (hr.iterate_eq_iff (show i + 1 ≤ j + 1 by omega)).1 hs with he | ⟨hμ, hd⟩
  · omega
  · have := Nat.le_of_dvd (by omega) hd
    omega

/-- No record comes twice before `log_next_idx`. -/
theorem nodup_records (hn : chain g firstIdx n = nextIdx)
    (hfirst : ∀ i < n, chain g firstIdx i ≠ nextIdx) :
    ((List.range n).map (chainRecord g firstIdx)).Nodup := by
  rw [List.nodup_map_iff_inj_on List.nodup_range]
  have key : ∀ i j, i < j → j < n → chainRecord g firstIdx i ≠ chainRecord g firstIdx j := by
    intro i j hij hj h
    apply chain_injective hn hfirst (i + 1) (j + 1) (by omega) (by omega)
    rw [← chain, ← chain, chain_succ, chain_succ, ← logNext_logFromPtr (chain g firstIdx i),
      ← logNext_logFromPtr (chain g firstIdx j)]
    exact congrArg (logNext g) h
  intro i hi j hj h
  rw [List.mem_range] at hi hj
  rcases Nat.lt_trichotomy i j with hlt | heq | hgt
  · exact absurd h (key i j hlt hj)
  · exact heq
  · exact absurd h.symm (key j i hgt hi)

theorem eraseDups_of_nodup : ∀ {L : List Nat}, L.Nodup → L.eraseDups = L
  | [], _ => rfl
  | a :: L, h => by
    rw [List.nodup_cons] at h
    have hfilter : L.filter (fun b => !b == a) = L := by
      rw [List.filter_eq_self]
      intro b hb
      simp only [Bool.not_eq_true', beq_eq_false_iff_ne]
      rintro rfl
      exact h.1 hb
    rw [List.eraseDups_cons, hfilter, eraseDups_of_nodup h.2]

/-- A list without duplicates, followed by one of its elements. -/
theorem eraseDups_concat {L : List Nat} {r : Nat} (hL : L.Nodup) (hr : r ∈ L) :
    (L ++ [r]).eraseDups = L := by
  rw [List.eraseDups_append, eraseDups_of_nodup hL]
  simp [List.removeAll, hr]

variable (g firstIdx nextIdx) in
/-- **What is asked of the walk.** It ends; when the chain reaches `log_next_idx` it has written each
record before it once, in order; when the chain runs into a cycle each record of the chain is left in
the file once, in order. -/
structure WalkOk : Prop where
  terminates : ∃ rounds r, ∀ fuel ≥ rounds, dumpDmesg g firstIdx nextIdx fuel = some r
  reaches : ∀ n, chain g firstIdx n = nextIdx → (∀ i < n, chain g firstIdx i ≠ nextIdx) →
    ((List.range n).map (chainRecord g firstIdx)).Nodup ∧
      ∃ rounds, ∀ fuel ≥ rounds, dumpDmesg g firstIdx nextIdx fuel =
        some (.done, ((List.range n).map (chainRecord g firstIdx)).flatMap (dumpLogEntry g))
  cycle : (∀ n, chain g firstIdx n ≠ nextIdx) → ∀ μ l, Rho (logNext g) firstIdx μ l →
    ∃ rounds, ∀ fuel ≥ rounds, dumpDmesg g firstIdx nextIdx fuel =
      some (.cycle,
        ((List.range (μ + l)).map (chainRecord g firstIdx)).eraseDups.flatMap (dumpLogEntry g))

variable (g firstIdx) in
/-- The first entry of the cycle is the start of the buffer; or it is no wrap marker, and the entries
before it, at the end of the tail and at the end of the cycle, do not stand for one record. -/
def EntersAtRecord (μ l : Nat) : Prop :=
  chain g firstIdx μ = 0 ∨ (g.msglen (chain g firstIdx μ) ≠ 0 ∧
    (0 < μ → chainRecord g firstIdx (μ - 1) ≠ chainRecord g firstIdx (μ + l - 1)))

theorem chainLines_eq (n : Nat) : chainLines g firstIdx n =
    ((List.range n).map (chainRecord g firstIdx)).flatMap (dumpLogEntry g) := by
  rw [chainLines, List.flatMap_map]

/-- The record of the first entry of the cycle, when it is no wrap marker, comes first there. -/
theorem first_record (hr : Rho (logNext g) firstIdx μ l) (hm : g.msglen (chain g firstIdx μ) ≠ 0) :
    chainRecord g firstIdx μ = chain g firstIdx μ ∧
      ∀ j < μ, chainRecord g firstIdx j ≠ chain g firstIdx μ := by
  have hrec : chainRecord g firstIdx μ = chain g firstIdx μ := if_neg hm
  refine ⟨hrec, fun j hj h => ?_⟩
  have hl := hr.pos
  rw [← hrec] at h
  obtain ⟨-, hlast⟩ := entries_of_same_record hr hj (by omega) h
  -- the cycle has one entry, which leads to itself and is not a marker
  have hloop : chain g firstIdx (μ + 1) = chain g firstIdx μ := by
    rw [show μ + 1 = μ + l by omega]
    exact hr.period
  rw [chain_succ, logNext, if_neg hm] at hloop
  omega

/-- A cycle that begins at the start of the buffer has no other entry. -/
theorem cycle_at_start (hr : Rho (logNext g) firstIdx μ l) (h0 : chain g firstIdx μ = 0) :
    l = 1 ∧ g.msglen 0 = 0 := by
  have hl := hr.pos
  have hm : g.msglen 0 = 0 := by
    obtain ⟨k, hk⟩ : ∃ k, μ + l = k + 1 := ⟨μ + l - 1, by omega⟩
    have hper : chain g firstIdx (k + 1) = 0 := by
      rw [← hk, ← h0]
      exact hr.period
    -- the entry before it adds a length to a pointer
    rw [chain_succ, logNext] at hper
    split at hper
    · omega
    · rename_i h
      omega
  refine ⟨?_, hm⟩
  by_contra hne
  have hnext : chain g firstIdx (μ + 1) = chain g firstIdx μ := by
    rw [chain_succ, h0, logNext, if_pos hm, hm]
  have := hr.inj (μ + 1) μ (by omega) (by omega) hnext
  omega

/-- The entry before it in the tail is a wrap marker. -/
theorem marker_before_start (hr : Rho (logNext g) firstIdx (k + 1) l)
    (h0 : chain g firstIdx (k + 1) = 0) : chainRecord g firstIdx k = 0 := by
  have hm := (cycle_at_start hr h0).2
  rw [chain_succ, logNext] at h0
  unfold chainRecord logFromPtr
  split at h0
  · rw [if_pos ‹_›]
  · omega

theorem nodup_of_ne (hr : Rho (logNext g) firstIdx μ l) (hn : n ≤ μ + l)
    (h : ¬ (0 < μ ∧ n = μ + l ∧ chainRecord g firstIdx (μ - 1) = chainRecord g firstIdx (n - 1))) :
    ((List.range n).map (chainRecord g firstIdx)).Nodup := by
  rw [List.nodup_map_iff_inj_on List.nodup_range]
  have key : ∀ i j, i < j → j < n → chainRecord g firstIdx i ≠ chainRecord g firstIdx j := by
    intro i j hij hj he
    obtain ⟨hi, hl⟩ := entries_of_same_record hr hij (by omega) he
    apply h
    refine ⟨by omega, by omega, ?_⟩
    rw [show μ - 1 = i by omega, show n - 1 = j by omega]
    exact he
  intro i hi j hj h
  rw [List.mem_range] at hi hj
  rcases Nat.lt_trichotomy i j with hlt | heq | hgt
  · exact absurd h (key i j hlt hj)
  · exact heq
  · exact absurd h.symm (key j i hgt hi)

/-- The records of a chain whose two ways into the cycle stand for one record. -/
theorem eraseDups_records (hr : Rho (logNext g) firstIdx μ l) (hμ : 0 < μ)
    (h : chainRecord g firstIdx (μ - 1) = chainRecord g firstIdx (μ + l - 1)) :
    ((List.range (μ + l)).map (chainRecord g firstIdx)).eraseDups =
      (List.range (μ + l - 1)).map (chainRecord g firstIdx) := by
  have hl := hr.pos
  have hsplit : List.range (μ + l) = List.range (μ + l - 1) ++ [μ + l - 1] := by
    rw [← List.range_succ, show (μ + l - 1).succ = μ + l by omega]
  rw [hsplit, List.map_append, List.map_singleton]
  apply eraseDups_concat
  · exact nodup_of_ne hr (by omega) fun hc => by omega
  · rw [← h]
    exact List.mem_map_of_mem (List.mem_range.2 (by omega))

/-- What the second loop leaves in the file when the cycle is entered at a record. -/
theorem writeToCorruption_ok (hr : Rho (logNext g) firstIdx μ l) (h : EntersAtRecord g firstIdx μ l)
    (hf : μ + l ≤ fuel) :
    writeToCorruption g (chain g firstIdx μ) fuel firstIdx false l [] =
      some (((List.range (μ + l)).map (chainRecord g firstIdx)).eraseDups.flatMap
        (dumpLogEntry g)) := by
  rcases h with h0 | ⟨hm, hne⟩
  · obtain ⟨rfl, hm0⟩ := cycle_at_start hr h0
    cases μ with
    | zero =>
      have hrec : chainRecord g firstIdx 0 = chain g firstIdx 0 := by
        rw [chainRecord, h0, logFromPtr, ite_self]
      rw [writeToCorruption_eq hr.pos hrec (fun j hj => absurd hj (Nat.not_lt_zero j)) hf,
        chainLines_eq]
      rfl
    | succ k =>
      have hk := marker_before_start hr h0
      have hlast : chainRecord g firstIdx (k + 1) = 0 := by
        rw [chainRecord, h0, logFromPtr, ite_self]
      have hbefore : ∀ j < k, chainRecord g firstIdx j ≠ chain g firstIdx (k + 1) := by
        intro j hj he
        obtain ⟨hj', -⟩ := entries_of_same_record hr (show j < k + 1 by omega) (by omega)
          (he.trans (h0.trans hlast.symm))
        omega
      rw [writeToCorruption_eq hr.pos (hk.trans h0.symm) hbefore (by omega), chainLines_eq,
        eraseDups_records hr (by omega) (hk.trans hlast.symm)]
      rfl
  · obtain ⟨hrec, hbefore⟩ := first_record hr hm
    rw [writeToCorruption_eq hr.pos hrec hbefore hf, chainLines_eq,
      eraseDups_of_nodup (nodup_of_ne hr (Nat.le_refl _) fun hc => hne hc.1 hc.2.2)]

theorem walkOk_of_reaches (hrange : ∀ i, g.inRange (chain g firstIdx (i + 1)))
    (h : ∃ n, chain g firstIdx n = nextIdx) : WalkOk g firstIdx nextIdx := by
  classical
  have hn := Nat.find_spec h
  have hfirst : ∀ i < Nat.find h, chain g firstIdx i ≠ nextIdx := fun i hi => Nat.find_min h hi
  refine ⟨⟨Nat.find h + 1, _, fun fuel hf => dumpDmesg_reaches hn hfirst hrange hf⟩, ?_,
    fun hc => absurd hn (hc _)⟩
  intro n hn' hfirst'
  refine ⟨nodup_records hn' hfirst', n + 1, fun fuel hf => ?_⟩
  rw [dumpDmesg_reaches hn' hfirst' hrange hf, chainLines_eq]

theorem walkOk_of_enters (hrange : ∀ i, g.inRange (chain g firstIdx (i + 1)))
    (hno : ∀ n, chain g firstIdx n ≠ nextIdx)
    (h : ∀ μ l, Rho (logNext g) firstIdx μ l → EntersAtRecord g firstIdx μ l) :
    WalkOk g firstIdx nextIdx := by
  have key : ∀ μ l, Rho (logNext g) firstIdx μ l → ∃ rounds, ∀ fuel ≥ rounds,
      dumpDmesg g firstIdx nextIdx fuel = some (.cycle,
        ((List.range (μ + l)).map (chainRecord g firstIdx)).eraseDups.flatMap (dumpLogEntry g)) := by
    intro μ l hr
    obtain ⟨n, hn⟩ := dumpDmesg_cycle hr hno hrange
    refine ⟨μ + l + 1 + n, fun fuel hf => ?_⟩
    have hl := hr.pos
    obtain ⟨m, rfl⟩ : ∃ m, fuel = m + 1 + n := ⟨fuel - n - 1, by omega⟩
    rw [hn m (by omega), writeToCorruption_ok hr (h μ l hr) (by omega)]
    rfl
  obtain ⟨μ, l, hr⟩ := exists_rho_chain hrange
  obtain ⟨rounds, hk⟩ := key μ l hr
  exact ⟨⟨rounds, _, hk⟩, fun n hn => absurd hn (hno n), fun _ => key⟩

/-- A cycle whose first entry is a wrap marker keeps the second loop running. -/
theorem dumpDmesg_stuck (hr : Rho (logNext g) firstIdx μ l) (hno : ∀ n, chain g firstIdx n ≠ nextIdx)
    (hrange : ∀ i, g.inRange (chain g firstIdx (i + 1))) (h0 : chain g firstIdx μ ≠ 0)
    (hm : g.msglen (chain g firstIdx μ) = 0) :
    ∃ rounds, ∀ fuel ≥ rounds, dumpDmesg g firstIdx nextIdx fuel = none := by
  obtain ⟨n, hn⟩ := dumpDmesg_cycle hr hno hrange
  have hfirst : ∀ j, chainRecord g firstIdx j ≠ chain g firstIdx μ := by
    intro j
    unfold chainRecord logFromPtr
    split
    · exact h0.symm
    · rename_i hj
      intro he
      rw [he] at hj
      exact hj hm
  refine ⟨μ + 1 + 1 + n, fun fuel hf => ?_⟩
  obtain ⟨m, rfl⟩ : ∃ m, fuel = m + 1 + n := ⟨fuel - n - 1, by omega⟩
  rw [hn m (by omega), writeToCorruption_stuck hfirst hr.pos]
  rfl

theorem not_walkOk_of_marker (hr : Rho (logNext g) firstIdx μ l)
    (hno : ∀ n, chain g firstIdx n ≠ nextIdx)
    (hrange : ∀ i, g.inRange (chain g firstIdx (i + 1))) (h0 : chain g firstIdx μ ≠ 0)
    (hm : g.msglen (chain g firstIdx μ) = 0) : ¬ WalkOk g firstIdx nextIdx := by
  intro h
  obtain ⟨rounds, r, hend⟩ := h.terminates
  obtain ⟨rounds', hstuck⟩ := dumpDmesg_stuck hr hno hrange h0 hm
  have := hend (rounds + rounds') (by omega)
  rw [hstuck (rounds + rounds') (by omega)] at this
  cases this

/-- A record that both ways into the cycle stand for is written twice. -/
theorem not_walkOk_of_twice (hr : Rho (logNext g) firstIdx μ l)
    (hno : ∀ n, chain g firstIdx n ≠ nextIdx)
    (hrange : ∀ i, g.inRange (chain g firstIdx (i + 1)))
    (hm : g.msglen (chain g firstIdx μ) ≠ 0) (hμ : 0 < μ)
    (he : chainRecord g firstIdx (μ - 1) = chainRecord g firstIdx (μ + l - 1)) :
    ¬ WalkOk g firstIdx nextIdx := by
  intro h
  have hl := hr.pos
  obtain ⟨rounds, hcycle⟩ := h.cycle hno μ l hr
  obtain ⟨n, hn⟩ := dumpDmesg_cycle hr hno hrange
  obtain ⟨hrec, hbefore⟩ := first_record hr hm
  have h1 := hn (μ + l + rounds) (by omega)
  rw [hcycle _ (by omega), writeToCorruption_eq hr.pos hrec hbefore (by omega),
    eraseDups_records hr hμ he, ← chainLines_eq, Option.map_some, Option.some.injEq,
    Prod.mk.injEq] at h1
  -- the line of that record is the difference
  have h2 := h1.2
  rw [show μ + l = μ + l - 1 + 1 by omega, chainLines_succ, Nat.add_sub_cancel] at h2
  exact logLine_ne_nil _ _ _ (List.self_eq_append_right.1 h2)

/-- **Exactly when the walk does what is asked**, for a chain that stays in the buffer: it reaches
`log_next_idx`, or its cycle is entered at a record. -/
theorem walk_ok_iff (hrange : ∀ i, g.inRange (chain g firstIdx (i + 1))) :
    WalkOk g firstIdx nextIdx ↔ (∃ n, chain g firstIdx n = nextIdx) ∨
      ∀ μ l, Rho (logNext g) firstIdx μ l → EntersAtRecord g firstIdx μ l := by
  constructor
  · intro h
    by_cases hreach : ∃ n, chain g firstIdx n = nextIdx
    · exact .inl hreach
    · have hno : ∀ n, chain g firstIdx n ≠ nextIdx := fun n hn => hreach ⟨n, hn⟩
      refine .inr fun μ l hr => ?_
      by_cases h0 : chain g firstIdx μ = 0
      · exact .inl h0
      · by_cases hm : g.msglen (chain g firstIdx μ) = 0
        · exact absurd h (not_walkOk_of_marker hr hno hrange h0 hm)
        · exact .inr ⟨hm, fun hμ he => not_walkOk_of_twice hr hno hrange hm hμ he h⟩
  · rintro (h | h)
    · exact walkOk_of_reaches hrange h
    · by_cases hno : ∃ n, chain g firstIdx n = nextIdx
      · exact walkOk_of_reaches hrange hno
      · exact walkOk_of_enters hrange (fun n hn => hno ⟨n, hn⟩) h

/-- Two records of 16 bytes and a wrap marker after them. -/
def twoRecords : Log :=
  { size := 16, tsNsec := 0, len := 8, textLen := 10
    buf := List.replicate 8 0 ++ [16, 0] ++ List.replicate 6 0 ++
      (List.replicate 8 0 ++ [16, 0] ++ List.replicate 6 0) ++ List.replicate 16 0 }

theorem twoRecords_next : logNext twoRecords 0 = 16 ∧ logNext twoRecords 16 = 32 ∧
    logNext twoRecords 32 = 16 := by decide +kernel

/-- The chain goes between the second record and the marker. -/
theorem twoRecords_chain {first : Nat} (h : logNext twoRecords first = 16 ∨ logNext twoRecords first = 32)
    (i : Nat) : chain twoRecords first (i + 1) = 16 ∨ chain twoRecords first (i + 1) = 32 := by
  induction i with
  | zero => exact h
  | succ i ih =>
    rw [chain_succ]
    rcases ih with ih | ih
    · rw [ih]
      exact .inr twoRecords_next.2.1
    · rw [ih]
      exact .inl twoRecords_next.2.2

theorem twoRecords_inRange {first : Nat}
    (h : logNext twoRecords first = 16 ∨ logNext twoRecords first = 32) (i : Nat) :
    twoRecords.inRange (chain twoRecords first (i + 1)) := by
  rcases twoRecords_chain h i with h | h <;> rw [h] <;> decide

/-- From the first record to the marker. -/
theorem walk_ok_two_records : WalkOk twoRecords 0 32 :=
  (walk_ok_iff (twoRecords_inRange (.inl twoRecords_next.1))).2 (.inl ⟨2, by
    rw [chain_succ, show chain twoRecords 0 1 = 16 from twoRecords_next.1]
    exact twoRecords_next.2.1⟩)

/-- With `log_first_idx` at the marker and a `log_next_idx` that is not in the chain the walk does not
end. -/
theorem walk_stuck_at_marker : (∀ i, twoRecords.inRange (chain twoRecords 32 (i + 1))) ∧
    ¬ WalkOk twoRecords 32 4 := by
  have hrange := twoRecords_inRange (.inl twoRecords_next.2.2)
  refine ⟨hrange, ?_⟩
  have h0 : chain twoRecords 32 0 = 32 := rfl
  have h1 : chain twoRecords 32 1 = 16 := twoRecords_next.2.2
  have h2 : chain twoRecords 32 2 = 32 := by
    rw [chain_succ, h1]
    exact twoRecords_next.2.1
  have hr : Rho (logNext twoRecords) 32 0 2 := by
    refine ⟨by decide, h2, ?_⟩
    intro i j hi hj he
    have he : chain twoRecords 32 i = chain twoRecords 32 j := he
    have hi : i = 0 ∨ i = 1 := by omega
    have hj : j = 0 ∨ j = 1 := by omega
    rcases hi with rfl | rfl <;> rcases hj with rfl | rfl <;> simp [h0, h1] at he ⊢
  have hno : ∀ n, chain twoRecords 32 n ≠ 4 := by
    intro n
    cases n with
    | zero => decide
    | succ n =>
      rcases twoRecords_chain (.inl twoRecords_next.2.2) n with h | h <;> rw [h] <;> decide
  exact not_walkOk_of_marker hr hno hrange (by rw [h0]; decide) (by rw [h0]; decide +kernel)

end Dmesg
