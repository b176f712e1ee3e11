import Makedumpfile.Erase.Filter
import Makedumpfile.Output.Cache

/-!
# The text about erased data

`get_size_eraseinfo`, which estimates the size of the text before the pages are written, and
`write_eraseinfo`, which prints it afterwards from the table `erase_info`. The buffer `size_str` of
the printing loop is not initialised and keeps its text from one line to the next: its first text is
a parameter. `create_dumpfile` clears neither the list nor the table before another attempt.
-/

namespace Erase

open Output

/-- The bytes of a C string. -/
def strBytes (s : String) : List UInt8 := s.toByteArray.data.toList

/-- `"size %ld\n"`. -/
def sizeStr (n : Int) : String := "size " ++ toString n ++ "\n"

def nullifyStr : String := "nullify\n"

/-- `"erase %s %s"`. -/
def eraseLine (symbolExpr size : String) : String := "erase " ++ symbolExpr ++ " " ++ size

/-! ## The estimate -/

/-- The node of the table for a command, whose index is not 0. -/
def Filter.node (s : Filter) (idx : Nat) : EraseInfo :=
  s.eraseInfo.getD (idx - 1) { symbolExpr := "", numSizes := 0 }

/-- What an entry of the list adds to the estimate. -/
def lineSize (s : Filter) (fi : FilterInfo) : Nat :=
  "erase ".utf8ByteSize + (s.node fi.eraseInfoIdx).symbolExpr.utf8ByteSize + 1 +
    (if fi.nullify then nullifyStr else sizeStr fi.size).utf8ByteSize

/-- The loop of `get_size_eraseinfo`, with at most `fuel` rounds. An entry without a command is
skipped by a `continue` that does not move on to the next one. -/
def sizeLoop (s : Filter) : Nat → List FilterInfo → Nat → Option Nat
  | 0, _, _ => none
  | _ + 1, [], size => some size
  | fuel + 1, fi :: l, size =>
    if fi.eraseInfoIdx = 0 then sizeLoop s fuel (fi :: l) size
    else sizeLoop s fuel l (size + lineSize s fi)

def getSizeEraseinfo (fuel : Nat) (s : Filter) : Option Nat := sizeLoop s fuel s.filterInfo 0

/-- All entries are from the configuration file. -/
def Filter.Commanded (s : Filter) : Prop := ∀ fi ∈ s.filterInfo, fi.eraseInfoIdx ≠ 0

/-- The size of one line for each entry of the list. -/
def estimate (s : Filter) : Nat := (s.filterInfo.map (lineSize s)).sum

theorem sizeLoop_eq (s : Filter) : ∀ (fuel : Nat) (l : List FilterInfo) (size : Nat),
    l.length < fuel → (∀ fi ∈ l, fi.eraseInfoIdx ≠ 0) →
    sizeLoop s fuel l size = some (size + (l.map (lineSize s)).sum)
  | 0, _, _, h, _ => by cases h
  | fuel + 1, [], size, _, _ => by simp [sizeLoop]
  | fuel + 1, fi :: l, size, h, hc => by
    have hl : l.length < fuel := by simpa using h
    rw [sizeLoop, if_neg (hc fi (by simp)),
      sizeLoop_eq s fuel l _ hl fun g hg => hc g (List.mem_cons_of_mem _ hg), List.map_cons,
      List.sum_cons, Nat.add_assoc]

/-- At an entry without a command the loop stays for ever. -/
theorem sizeLoop_stuck (s : Filter) : ∀ (fuel : Nat) (l : List FilterInfo) (size : Nat),
    (∃ fi ∈ l, fi.eraseInfoIdx = 0) → sizeLoop s fuel l size = none
  | 0, _, _, _ => by simp [sizeLoop]
  | fuel + 1, [], _, h => by simp at h
  | fuel + 1, fi :: l, size, h => by
    rw [sizeLoop]
    split
    · exact sizeLoop_stuck s fuel (fi :: l) size h
    · rename_i hi
      refine sizeLoop_stuck s fuel l _ ?_
      obtain ⟨g, hg, h0⟩ := h
      rcases List.mem_cons.1 hg with rfl | hg
      · exact absurd h0 hi
      · exact ⟨g, hg, h0⟩

/-- **The estimate** is made exactly when every entry has a command. -/
theorem getSizeEraseinfo_terminates (s : Filter) :
    (∃ fuel n, getSizeEraseinfo fuel s = some n) ↔ s.Commanded := by
  constructor
  · rintro ⟨fuel, n, h⟩ fi hfi h0
    rw [getSizeEraseinfo, sizeLoop_stuck s fuel _ 0 ⟨fi, hfi, h0⟩] at h
    cases h
  · intro hc
    exact ⟨_, _, sizeLoop_eq s _ _ 0 (Nat.lt_succ_self _) hc⟩

theorem sizeLoop_some (s : Filter) : ∀ {fuel : Nat} {l : List FilterInfo} {size n : Nat},
    sizeLoop s fuel l size = some n → n = size + (l.map (lineSize s)).sum
  | 0, _, _, _, h => by simp [sizeLoop] at h
  | fuel + 1, [], size, n, h => by
    rw [sizeLoop] at h
    cases h
    simp
  | fuel + 1, fi :: l, size, n, h => by
    rw [sizeLoop] at h
    split at h
    · exact sizeLoop_some s h
    · rw [sizeLoop_some s h, List.map_cons, List.sum_cons, Nat.add_assoc]

theorem getSizeEraseinfo_some {s : Filter} {fuel n : Nat} (h : getSizeEraseinfo fuel s = some n) :
    n = estimate s := by
  rw [sizeLoop_some s h, Nat.zero_add, estimate]

theorem lineSize_pos (s : Filter) (fi : FilterInfo) : 0 < lineSize s fi := by
  unfold lineSize
  omega

theorem estimate_eq_zero {s : Filter} : estimate s = 0 ↔ s.filterInfo = [] := by
  unfold estimate
  constructor
  · intro h
    cases hl : s.filterInfo with
    | nil => rfl
    | cons fi l =>
      have := lineSize_pos s fi
      rw [hl, List.map_cons, List.sum_cons] at h
      omega
  · intro h
    rw [h]
    rfl

/-! ## The text -/

/-- The text that `size_str` gets for `sizes[j]`; for 0 it gets none. -/
def sizeText (n : Int) : Option String :=
  if n > 0 then some (sizeStr n) else if n = -1 then some nullifyStr else none

/-- One command: the lines of its iterations and `size_str` at the end. -/
def commandLines (symbolExpr : String) : String → List Int → List String × String
  | size, [] => ([], size)
  | size, n :: sizes =>
    let size := (sizeText n).getD size
    let r := commandLines symbolExpr size sizes
    (eraseLine symbolExpr size :: r.1, r.2)

/-- `sizes[0]` up to `sizes[num_sizes - 1]`. -/
def EraseInfo.sizeList (ei : EraseInfo) : List Int :=
  (List.range ei.numSizes).map fun j => (ei.sizes.getD []).getD j 0

/-- The lines of the table, `size_str` holding `size`. -/
def eraseLines : String → List EraseInfo → List String
  | _, [] => []
  | size, ei :: l =>
    if !ei.erased then eraseLines size l
    else
      let r := commandLines ei.symbolExpr size ei.sizeList
      r.1 ++ eraseLines r.2 l

/-- The sum of the `strlen`s. -/
def textSize (lines : List String) : Nat := (lines.map String.utf8ByteSize).sum

/-- One `write_cache`. -/
def writeLine (c : Opts) (s : CacheData × Out) (line : String) : Option (CacheData × Out) :=
  match writeCache c s.1 (strBytes line) s.2 with
  | (false, _) => none
  | (true, r) => some r

/-- The size of the text, the cache and the output; `none` when a write fails. -/
def writeEraseinfo (c : Opts) (size : String) (table : List EraseInfo) (cd : CacheData) (o : Out) :
    Option (Nat × CacheData × Out) :=
  let lines := eraseLines size table
  (lines.foldlM (writeLine c) (cd, o)).bind fun s =>
    match writeCacheBufsz c s.1 s.2 with
    | (false, _) => none
    | (true, cd, o) => some (textSize lines, cd, o)

/-! ## Attempts

`create_dumpfile` tries again with the next dump level when the device is full. -/

section
variable (vaddrToPaddr : Nat → Nat) (reqs : List Request) (pageSize : Nat) (mem : Nat → List UInt8)

/-- The configuration file is read again, so no `config_entry` has a node yet; the list and the table
are those that the last attempt left. -/
def gatherAgain (s : Filter) : Filter :=
  reqs.foldl (enter vaddrToPaddr) { s with entryIdx := fun _ => 0 }

/-- An attempt that passes the pages `pages`, all of them or those before the device was full. -/
def attempt (s : Filter) (pages : List Nat) : Filter :=
  (filterPages pageSize pages (gatherAgain vaddrToPaddr reqs s) mem).1

/-- The list and the table before the pages of the last attempt are passed. -/
def beforeLast (failed : List (List Nat)) : Filter :=
  gatherAgain vaddrToPaddr reqs (failed.foldl (attempt vaddrToPaddr reqs pageSize mem) {})

/-- The list and the table when the text of the dump is written. -/
def createDumpfile (failed : List (List Nat)) (pages : List Nat) : Filter :=
  (filterPages pageSize pages (beforeLast vaddrToPaddr reqs pageSize mem failed) mem).1

end

@[simp] theorem length_strBytes (s : String) : (strBytes s).length = s.utf8ByteSize := by
  rw [strBytes, Array.length_toList]
  exact String.size_toByteArray

end Erase
