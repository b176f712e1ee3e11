import Makedumpfile.Dmesg.Proof.Records
import Makedumpfile.Dmesg.Reads

/-!
# Reads outside the record buffer

The walk reads at the entries of the chain that it visits, up to `log_next_idx` or the first index
outside the checked range (`Visited`), and at no other place: also the detector and the second loop
follow the chain, and after a report the whole chain has been visited (`mem_dumpDmesgReads`). The index
of every entry but the first is checked, so the fields of an entry are in the buffer; what is not
checked is the first index and the length of the texts (`reads_in_buffer_iff`).
-/

namespace Dmesg

open Lib

variable (g : Log) (firstIdx nextIdx : Nat)

/-- The reads for one entry of the chain. -/
def nodeReads (p : Nat) : List (Nat × Nat) :=
  fromPtrReads g p ++ entryReads g (logFromPtr g p) ++ nextReads g p

/-- The entry number `i` of the chain is visited. -/
structure Visited (i : Nat) : Prop where
  ne_next : ∀ j ≤ i, chain g firstIdx j ≠ nextIdx
  inRange : ∀ j < i, g.inRange (chain g firstIdx (j + 1))

variable {g firstIdx nextIdx} {i j k s fuel : Nat} {r : Nat × Nat}

/-! ## The detector follows the chain -/

theorem dcAfter_fastP (head : Nat) (next : Nat → Nat) (n : Nat) :
    (dcAfter next head n).fastP = next^[n] head := by
  induction n with
  | zero => rfl
  | succ n ih =>
    have hfast : (dcAfter next head n).moveAnchor.fastP = (dcAfter next head n).fastP := by
      unfold DetectCycle.moveAnchor
      split <;> rfl
    rw [Function.iterate_succ_apply', ← ih, ← hfast]
    rfl

theorem dcAfter_head (head : Nat) (next : Nat → Nat) (n : Nat) :
    (dcAfter next head n).head = head := by
  induction n with
  | zero => rfl
  | succ n ih =>
    have hhead : (dcAfter next head n).moveAnchor.head = (dcAfter next head n).head := by
      unfold DetectCycle.moveAnchor
      split <;> rfl
    exact hhead.trans ih

theorem dcAfter_slowP (head : Nat) (next : Nat → Nat) (n : Nat) :
    ∃ s ≤ n, (dcAfter next head n).moveAnchor.slowP = next^[s] head := by
  induction n with
  | zero => exact ⟨0, Nat.le_refl 0, rfl⟩
  | succ n ih =>
    obtain ⟨s, hs, hslow⟩ := ih
    unfold DetectCycle.moveAnchor
    split
    · exact ⟨n + 1, Nat.le_refl _, dcAfter_fastP head next (n + 1)⟩
    · exact ⟨s, by omega, hslow⟩

theorem dcNext_some {next : Nat → Nat} {dc dc' : DetectCycle Nat} {p : Nat}
    (h : dcNext next dc = (some p, dc')) : p = dc'.fastP := by
  unfold dcNext at h
  dsimp only at h
  split at h
  case isTrue => cases h
  case isFalse =>
    cases h
    rfl

/-- A report: the entry reached is one that was there before. -/
theorem dcCall_none {head : Nat} {next : Nat → Nat} {n : Nat} (h : dcCall next head n = none) :
    ∃ s ≤ n, next^[s] head = next^[n + 1] head := by
  obtain ⟨s, hs, hslow⟩ := dcAfter_slowP head next n
  refine ⟨s, hs, ?_⟩
  have hfast : next (dcAfter next head n).moveAnchor.fastP = next^[n + 1] head :=
    dcAfter_fastP head next (n + 1)
  unfold dcCall dcNext at h
  dsimp only at h
  split at h
  case isTrue heq => rw [← hslow, heq, hfast]
  case isFalse => cases h

/-- Behind a report the chain has no new entries. -/
theorem chain_of_report (hs : s ≤ k) (h : chain g firstIdx s = chain g firstIdx (k + 1)) (j : Nat) :
    ∃ i ≤ k, chain g firstIdx j = chain g firstIdx i := by
  obtain ⟨μ, l, hr, hle⟩ := exists_rho (show s < k + 1 by omega) h
  have := hr.foldPlace_lt j
  exact ⟨foldPlace μ l j, by omega, (hr.iterate_foldPlace j).symm⟩

/-! ## Every read is at an entry of the chain -/

theorem mem_nodeReads_next {p : Nat} (h : r ∈ nextReads g p) : r ∈ nodeReads g p :=
  List.mem_append_right _ h

theorem mem_findStartLoopReads : ∀ {fuel i j : Nat},
    r ∈ findStartLoopReads g (chain g firstIdx i) (chain g firstIdx j) fuel →
    ∃ n, r ∈ nodeReads g (chain g firstIdx n)
  | 0, _, _, h => by simp [findStartLoopReads] at h
  | fuel + 1, i, j, h => by
    unfold findStartLoopReads at h
    split at h
    case isTrue =>
      rw [List.mem_append, List.mem_append] at h
      rcases h with (h | h) | h
      · exact ⟨i, mem_nodeReads_next h⟩
      · exact ⟨j, mem_nodeReads_next h⟩
      · rw [← chain_succ, ← chain_succ] at h
        exact mem_findStartLoopReads h
    case isFalse => simp at h

theorem mem_findStartReads {dc : DetectCycle Nat} (hh : dc.head = firstIdx)
    (h : r ∈ findStartReads g dc fuel) : ∃ n, r ∈ nodeReads g (chain g firstIdx n) := by
  unfold findStartReads at h
  rw [hh, List.mem_append, List.mem_flatMap] at h
  rcases h with ⟨n, -, h⟩ | h
  · exact ⟨n, mem_nodeReads_next h⟩
  · exact mem_findStartLoopReads (i := 0) (j := dc.length) h

theorem mem_corruptionReads {first : Nat} : ∀ {fuel i len : Nat} {inCycle : Bool},
    r ∈ corruptionReads g first fuel (chain g firstIdx i) inCycle len →
    ∃ n, r ∈ nodeReads g (chain g firstIdx n)
  | _, _, 0, _, h => by simp [corruptionReads] at h
  | 0, _, _ + 1, _, h => by simp [corruptionReads] at h
  | fuel + 1, i, len + 1, inCycle, h => by
    unfold corruptionReads at h
    dsimp only at h
    rw [List.mem_append] at h
    rcases h with h | h
    · exact ⟨i, h⟩
    · rw [← chain_succ] at h
      exact mem_corruptionReads h

theorem mem_walkReads : ∀ {fuel k : Nat}, (∀ j < k, chain g firstIdx j ≠ nextIdx) →
    (∀ j < k, g.inRange (chain g firstIdx (j + 1))) →
    r ∈ walkReads g firstIdx nextIdx fuel (chain g firstIdx k) (dcAfter (logNext g) firstIdx k) →
    ∃ i, Visited g firstIdx nextIdx i ∧ r ∈ nodeReads g (chain g firstIdx i)
  | 0, _, _, _, h => by simp [walkReads] at h
  | fuel + 1, k, hne, hrange, h => by
    unfold walkReads at h
    split at h
    case isTrue => simp at h
    case isFalse hk =>
      have hv : ∀ i ≤ k, Visited g firstIdx nextIdx i := by
        intro i hi
        refine ⟨fun j hj => ?_, fun j hj => hrange j (by omega)⟩
        by_cases hjk : j = k
        · rw [hjk]
          exact hk
        · exact hne j (by omega)
      rw [List.mem_append, List.mem_append] at h
      rcases h with (h | h) | h
      · exact ⟨k, hv k (Nat.le_refl k), h⟩
      · rw [dcAfter_fastP] at h
        exact ⟨k, hv k (Nat.le_refl k), mem_nodeReads_next h⟩
      · cases hcall : dcNext (logNext g) (dcAfter (logNext g) firstIdx k) with
        | mk nextPtr dc =>
          have hdc : dcAfter (logNext g) firstIdx (k + 1) = dc := by rw [dcAfter, hcall]
          rw [hcall] at h
          cases nextPtr with
          | none =>
            -- the reads after the report are at entries that were visited before it
            have hn : dcCall (logNext g) firstIdx k = none := by rw [dcCall, hcall]
            obtain ⟨s, hs, hrep⟩ := dcCall_none hn
            have hmem : ∃ n, r ∈ nodeReads g (chain g firstIdx n) := by
              dsimp only at h
              rw [List.mem_append] at h
              rcases h with h | h
              · exact mem_findStartReads (hdc ▸ dcAfter_head firstIdx (logNext g) (k + 1)) h
              · cases hfind : dcFindStart (logNext g) dc fuel with
                | none =>
                  rw [hfind] at h
                  simp at h
                | some fl =>
                  rw [hfind] at h
                  exact mem_corruptionReads (i := 0) h
            obtain ⟨n, hmem⟩ := hmem
            obtain ⟨i, hi, hchain⟩ := chain_of_report hs hrep n
            exact ⟨i, hv i hi, hchain ▸ hmem⟩
          | some nextPtr =>
            have hptr : nextPtr = chain g firstIdx (k + 1) := by
              rw [dcNext_some hcall, ← hdc]
              exact dcAfter_fastP firstIdx (logNext g) (k + 1)
            dsimp only at h
            split at h
            case isTrue => simp at h
            case isFalse hin =>
              rw [not_not, hptr] at hin
              rw [hptr, ← hdc] at h
              refine mem_walkReads (fun j hj => (hv k (Nat.le_refl k)).ne_next j (by omega)) ?_ h
              intro j hj
              by_cases hjk : j = k
              · rw [hjk]
                exact hin
              · exact hrange j (by omega)

/-- **Where the walk reads.** -/
theorem mem_dumpDmesgReads (h : r ∈ dumpDmesgReads g firstIdx nextIdx fuel) :
    ∃ i, Visited g firstIdx nextIdx i ∧ r ∈ nodeReads g (chain g firstIdx i) :=
  mem_walkReads (k := 0) (fun _ hj => absurd hj (Nat.not_lt_zero _))
    (fun _ hj => absurd hj (Nat.not_lt_zero _)) h

/-! ## Every visited entry is read -/

/-- The reads from the entry number `k` on, while the detector does not report. -/
theorem walkReads_steps (hcalls : ∀ j < k, dcCall (logNext g) firstIdx j = some (chain g firstIdx (j + 1)))
    (hv : ∀ j < k, chain g firstIdx j ≠ nextIdx ∧ g.inRange (chain g firstIdx (j + 1)))
    (fuel : Nat) : ∀ r ∈ walkReads g firstIdx nextIdx fuel (chain g firstIdx k)
      (dcAfter (logNext g) firstIdx k), r ∈ dumpDmesgReads g firstIdx nextIdx (fuel + k) := by
  induction k generalizing fuel with
  | zero => exact fun r h => h
  | succ k ih =>
    intro r h
    have hcall := hcalls k (Nat.lt_succ_self k)
    obtain ⟨hne, hin⟩ := hv k (Nat.lt_succ_self k)
    rw [show fuel + (k + 1) = fuel + 1 + k by omega]
    refine ih (fun j hj => hcalls j (by omega)) (fun j hj => hv j (by omega)) (fuel + 1) r ?_
    unfold dcCall at hcall
    cases hstep : dcNext (logNext g) (dcAfter (logNext g) firstIdx k) with
    | mk nextPtr dc =>
      rw [hstep] at hcall
      have hptr : nextPtr = some (chain g firstIdx (k + 1)) := hcall
      rw [walkReads, if_neg hne, hstep, hptr]
      dsimp only
      rw [if_neg (not_not.2 hin)]
      refine List.mem_append_right _ ?_
      rw [dcAfter, hstep] at h
      exact h

theorem nodeReads_of_injective (hv : Visited g firstIdx nextIdx i)
    (hinj : ∀ a b, a < b → b ≤ i → (logNext g)^[a] firstIdx ≠ (logNext g)^[b] firstIdx)
    (h : r ∈ nodeReads g (chain g firstIdx i)) : r ∈ dumpDmesgReads g firstIdx nextIdx (1 + i) := by
  refine walkReads_steps (dcCall_of_injective hinj)
    (fun j hj => ⟨hv.ne_next j (by omega), hv.inRange j hj⟩) 1 r ?_
  rw [walkReads, if_neg (hv.ne_next i (Nat.le_refl i))]
  exact List.mem_append_left _ (List.mem_append_left _ h)

theorem Visited.reads (hv : Visited g firstIdx nextIdx i)
    (h : r ∈ nodeReads g (chain g firstIdx i)) : ∃ fuel, r ∈ dumpDmesgReads g firstIdx nextIdx fuel := by
  by_cases hinj : ∀ a b, a < b → b ≤ i → (logNext g)^[a] firstIdx ≠ (logNext g)^[b] firstIdx
  · exact ⟨_, nodeReads_of_injective hv hinj h⟩
  · -- an entry comes twice: the one at `i` was visited in the first round of the cycle
    simp only [not_forall, not_not] at hinj
    obtain ⟨a, b, hab, hb, he⟩ := hinj
    obtain ⟨μ, l, hr, hle⟩ := exists_rho hab he
    have hlt := hr.foldPlace_lt i
    have hv' : Visited g firstIdx nextIdx (foldPlace μ l i) :=
      ⟨fun j hj => hv.ne_next j (by omega), fun j hj => hv.inRange j (by omega)⟩
    refine ⟨_, nodeReads_of_injective hv' ?_ ?_⟩
    · intro c d hcd hd hce
      have := hr.inj c d (by omega) (by omega) hce
      omega
    · have hfold : chain g firstIdx (foldPlace μ l i) = chain g firstIdx i := hr.iterate_foldPlace i
      rw [hfold]
      exact h

/-! ## Reads in the buffer -/

variable (g) in
/-- All bytes of a read are in `log_buffer`. -/
def InBuf (r : Nat × Nat) : Prop := ∀ x, r.1 ≤ x → x < r.1 + r.2 → x < g.buf.length

theorem inBuf_iff (r : Nat × Nat) : InBuf g r ↔ r.2 = 0 ∨ r.1 + r.2 ≤ g.buf.length := by
  unfold InBuf
  constructor
  · intro h
    by_cases h0 : r.2 = 0
    · exact .inl h0
    · have := h (r.1 + r.2 - 1) (by omega) (by omega)
      exact .inr (by omega)
  · intro h x h1 h2
    omega

/-- The fields of a `printk_log` are in the struct, and the buffer has room for one. -/
structure Layout (g : Log) : Prop where
  len : g.len + 2 ≤ g.size
  textLen : g.textLen + 2 ≤ g.size
  tsNsec : g.tsNsec + 8 ≤ g.size
  callerId : ∀ o, g.callerId = some o → o + 4 ≤ g.size
  room : g.size ≤ g.buf.length

variable (g) in
/-- The fields that `dump_log_entry` reads of a record are in the buffer. -/
def FieldsOk (r : Nat) : Prop :=
  r + g.textLen + 2 ≤ g.buf.length ∧ r + g.tsNsec + 8 ≤ g.buf.length ∧
    ∀ o, g.callerId = some o → r + o + 4 ≤ g.buf.length

variable (g) in
/-- The text of a record is in the buffer. -/
def TextOk (r : Nat) : Prop :=
  g.ushort (r + g.textLen) = 0 ∨ r + g.size + g.ushort (r + g.textLen) ≤ g.buf.length

theorem entryReads_inBuf (r : Nat) :
    (∀ x ∈ entryReads g r, InBuf g x) ↔ FieldsOk g r ∧ TextOk g r := by
  unfold entryReads FieldsOk TextOk
  simp only [List.mem_append, List.mem_cons, List.not_mem_nil, or_false, Option.mem_toList,
    Option.map_eq_some_iff, inBuf_iff]
  constructor
  · intro h
    refine ⟨⟨?_, ?_, fun o ho => ?_⟩, ?_⟩
    · simpa using h _ (.inl (.inl (.inl rfl)))
    · simpa using h _ (.inl (.inl (.inr rfl)))
    · simpa using h _ (.inl (.inr ⟨o, ho, rfl⟩))
    · exact h _ (.inr rfl)
  · rintro ⟨⟨h1, h2, h3⟩, h4⟩ x (((rfl | rfl) | ⟨o, ho, rfl⟩) | rfl)
    · exact .inr h1
    · exact .inr h2
    · exact .inr (h3 o ho)
    · exact h4

theorem nodeReads_inBuf (hl : Layout g) (p : Nat) :
    (∀ x ∈ nodeReads g p, InBuf g x) ↔
      p + g.len + 2 ≤ g.buf.length ∧ FieldsOk g (logFromPtr g p) ∧ TextOk g (logFromPtr g p) := by
  have h1 := hl.len
  have h2 := hl.room
  have hnext : (∀ x ∈ nextReads g p, InBuf g x) ↔ p + g.len + 2 ≤ g.buf.length := by
    unfold nextReads
    rw [List.forall_mem_cons, inBuf_iff]
    constructor
    · rintro ⟨h, -⟩
      exact h.resolve_left (by simp)
    · intro h
      refine ⟨.inr h, ?_⟩
      split
      · simp only [List.mem_singleton, forall_eq, inBuf_iff]
        omega
      · simp
  unfold nodeReads fromPtrReads
  rw [List.forall_mem_append, List.forall_mem_append, entryReads_inBuf, hnext]
  simp only [List.mem_singleton, forall_eq, inBuf_iff]
  constructor
  · rintro ⟨⟨-, h⟩, hp⟩
    exact ⟨hp, h⟩
  · rintro ⟨hp, h⟩
    exact ⟨⟨.inr hp, h⟩, hp⟩

/-- The fields of an entry in the checked range are in the buffer. -/
theorem fieldsOk_of_inRange (hl : Layout g) {p : Nat} (h : g.inRange p) :
    p + g.len + 2 ≤ g.buf.length ∧ FieldsOk g (logFromPtr g p) := by
  obtain ⟨h1, h2, h3, h4, h5⟩ := hl
  unfold Log.inRange at h
  have hle : logFromPtr g p ≤ p := by
    unfold logFromPtr
    split <;> omega
  refine ⟨by omega, by omega, by omega, fun o ho => ?_⟩
  have := h4 o ho
  omega

variable (g firstIdx nextIdx) in
/-- Every byte that the record walk reads is in `log_buffer`. -/
def ReadsInBuffer : Prop := ∀ fuel, ∀ r ∈ dumpDmesgReads g firstIdx nextIdx fuel, InBuf g r

variable (g firstIdx nextIdx) in
/-- The first entry's fields are in the buffer, and so are the texts of the records up to
`log_next_idx` or the first index outside. -/
structure EntriesInBuffer : Prop where
  first : firstIdx + g.len + 2 ≤ g.buf.length ∧ FieldsOk g (logFromPtr g firstIdx)
  texts : ∀ i, Visited g firstIdx nextIdx i → TextOk g (chainRecord g firstIdx i)

/-- **Reads of the log buffer.** -/
theorem reads_in_buffer_iff (hl : Layout g) :
    ReadsInBuffer g firstIdx nextIdx ↔ firstIdx = nextIdx ∨ EntriesInBuffer g firstIdx nextIdx := by
  constructor
  · intro h
    by_cases hne : firstIdx = nextIdx
    · exact .inl hne
    · have hnode : ∀ i, Visited g firstIdx nextIdx i →
          ∀ x ∈ nodeReads g (chain g firstIdx i), InBuf g x := by
        intro i hv x hx
        obtain ⟨fuel, hmem⟩ := hv.reads hx
        exact h fuel x hmem
      have h0 : Visited g firstIdx nextIdx 0 := by
        refine ⟨fun j hj => ?_, fun j hj => absurd hj (Nat.not_lt_zero j)⟩
        rw [Nat.le_zero.1 hj]
        exact hne
      obtain ⟨h1, h2, -⟩ := (nodeReads_inBuf hl _).1 (hnode 0 h0)
      exact .inr ⟨⟨h1, h2⟩, fun i hv => ((nodeReads_inBuf hl _).1 (hnode i hv)).2.2⟩
  · rintro (rfl | ⟨hfirst, htexts⟩) fuel r hr
    · obtain ⟨i, hv, -⟩ := mem_dumpDmesgReads hr
      exact absurd rfl (hv.ne_next 0 (Nat.zero_le i))
    · obtain ⟨i, hv, hr⟩ := mem_dumpDmesgReads hr
      refine (nodeReads_inBuf hl _).2 ?_ r hr
      cases i with
      | zero => exact ⟨hfirst.1, hfirst.2, htexts 0 hv⟩
      | succ i =>
        obtain ⟨h1, h2⟩ := fieldsOk_of_inRange hl (hv.inRange i (Nat.lt_succ_self i))
        exact ⟨h1, h2, htexts (i + 1) hv⟩

theorem layout_twoRecords : Layout twoRecords where
  len := by decide
  textLen := by decide
  tsNsec := by decide
  callerId := fun _ h => by cases h
  room := by decide

theorem reads_in_buffer_twoRecords : Layout twoRecords ∧ ReadsInBuffer twoRecords 0 32 := by
  refine ⟨layout_twoRecords, (reads_in_buffer_iff layout_twoRecords).2 (.inr ⟨?_, fun i hv => ?_⟩)⟩
  · exact ⟨by decide, by decide, by decide, fun _ h => by cases h⟩
  · have h1 : chain twoRecords 0 1 = 16 := twoRecords_next.1
    have h2 : chain twoRecords 0 2 = 32 := by
      rw [chain_succ, h1]
      exact twoRecords_next.2.1
    by_cases hi : 2 ≤ i
    · exact absurd h2 (hv.ne_next 2 hi)
    · have hi : i = 0 ∨ i = 1 := by omega
      rcases hi with rfl | rfl
      · exact .inl (by decide +kernel)
      · unfold chainRecord
        rw [h1]
        exact .inl (by decide +kernel)

/-- A record of 16 bytes whose text is said to have 255 bytes. -/
def longText : Log :=
  { size := 16, tsNsec := 0, len := 8, textLen := 10
    buf := List.replicate 8 0 ++ [16, 0, 255, 0] ++ List.replicate 20 0 }

theorem not_reads_in_buffer_longText : Layout longText ∧ ¬ ReadsInBuffer longText 0 16 := by
  refine ⟨⟨by decide, by decide, by decide, by simp [longText], by decide⟩, fun h => ?_⟩
  have hr : (16, 255) ∈ dumpDmesgReads longText 0 16 1 := by decide +kernel
  have := h 1 _ hr 32 (by decide) (by decide)
  revert this
  decide

end Dmesg
