import Makedumpfile.Erase.Proof.Text

/-!
# The lines of the text

The printing loop prints a line also for an iteration of which nothing was erased, with what
`size_str` holds from before. So **the text tells what was erased** exactly if each command has all its
entries on dumped pages or none (`eraseinfo_text_iff`), provided the failed attempts erased nothing.
-/

namespace Erase

open Lib ByteFile Output

/-! ## The lines -/

/-- The bytes of `e` that the pieces of a dump erase for it. -/
def erasedBytes (log : List FilterInfo) (e : FilterInfo) : Nat :=
  (List.range e.size).countP fun k => log.any fun g =>
    g.key = e.key ∧ g.paddr ≤ e.paddr + k ∧ e.paddr + k < g.paddr + g.size

/-- The line of an entry, if something of it is erased. -/
def entryLines (symbolExpr : String) (log : List FilterInfo) (e : FilterInfo) : List String :=
  if erasedBytes log e = 0 then []
  else [eraseLine symbolExpr (if e.nullify then nullifyStr else sizeStr (erasedBytes log e))]

/-- The text that a dump with the pieces `log` should have: the commands in their order, and for each
of them its entries. -/
def specLines (s : Filter) (log : List FilterInfo) : List String :=
  (List.range s.eraseInfo.length).flatMap fun i =>
    (List.range (s.node (i + 1)).numSizes).flatMap fun j =>
      ((s.filterInfo.find? (·.key = (i + 1, j))).map
        (entryLines (s.node (i + 1)).symbolExpr log)).getD []

/-- The lines of a node that has a size for each iteration, without those of size 0. -/
def goodLines (ei : EraseInfo) : List String :=
  ei.sizeList.flatMap fun n => ((sizeText n).map (eraseLine ei.symbolExpr)).toList

theorem countP_range_lt (d : Nat) : ∀ n, (List.range n).countP (· < d) = min n d
  | 0 => by simp
  | n + 1 => by
    rw [List.range_succ, List.countP_append, countP_range_lt d n, List.countP_cons, List.countP_nil]
    split <;> simp only [decide_eq_true_eq] at * <;> omega

theorem Progress.erasedBytes {e : FilterInfo} {s : Filter} {log : List FilterInfo} {r : Nat}
    (h : Progress e s log r) : erasedBytes log e = r - e.paddr := by
  have hu := h.upper
  have hcongr : (List.range e.size).countP (fun k => log.any fun g =>
      g.key = e.key ∧ g.paddr ≤ e.paddr + k ∧ e.paddr + k < g.paddr + g.size) =
      (List.range e.size).countP (· < r - e.paddr) := by
    refine List.countP_congr fun k _ => ?_
    have hc := h.covered (e.paddr + k)
    simp only [List.any_eq_true, decide_eq_true_eq]
    rw [show (∃ g ∈ log, g.key = e.key ∧ g.paddr ≤ e.paddr + k ∧ e.paddr + k < g.paddr + g.size) ↔
      _ from hc]
    omega
  rw [Erase.erasedBytes, hcongr, countP_range_lt]
  omega

theorem Progress.sizeText {e : FilterInfo} {s : Filter} {log : List FilterInfo} {r : Nat}
    (h : Progress e s log r) :
    Erase.sizeText (s.slot e.key) = if r = e.paddr then none
      else some (if e.nullify then nullifyStr else sizeStr (r - e.paddr : Nat)) := by
  have hlo := h.lower
  rw [h.slot]
  split
  · rfl
  · cases e.nullify with
    | true => rfl
    | false =>
      simp only [Bool.false_eq_true, if_false, Erase.sizeText]
      rw [if_pos (by omega)]

theorem Progress.entryLines {e : FilterInfo} {s : Filter} {log : List FilterInfo} {r : Nat}
    (h : Progress e s log r) (expr : String) :
    entryLines expr log e = ((Erase.sizeText (s.slot e.key)).map (eraseLine expr)).toList := by
  have hlo := h.lower
  rw [h.sizeText, Erase.entryLines, h.erasedBytes]
  by_cases hr : r = e.paddr
  · rw [if_pos (by omega), if_pos hr]
    rfl
  · rw [if_neg (by omega), if_neg hr]
    rfl

theorem eraseInfo_eq_range (s : Filter) :
    s.eraseInfo = (List.range s.eraseInfo.length).map fun i => s.node (i + 1) := by
  refine List.ext_getElem (by simp) fun i h1 h2 => ?_
  simp [Filter.node, List.getElem?_eq_getElem h1]

/-- **The text as it should be** is that of the sizes in the table, without those that are 0. -/
theorem Run.specLines {G s : Filter} {log : List FilterInfo} {r : FilterInfo → Nat}
    (hkey : Keyed G.filterInfo (G.eraseInfo.map EraseInfo.command))
    (h : Run G.filterInfo (G.eraseInfo.map EraseInfo.command) s log r) :
    specLines G log = s.eraseInfo.flatMap goodLines := by
  have hlen : s.eraseInfo.length = G.eraseInfo.length := by
    simpa using congrArg List.length h.cmds
  rw [Erase.specLines, eraseInfo_eq_range s, List.flatMap_map, hlen]
  refine List.flatMap_congr fun i hi => ?_
  have hi := List.mem_range.1 hi
  have hc : (G.eraseInfo.map EraseInfo.command)[i + 1 - 1]? = some (G.node (i + 1)).command := by
    simp [Filter.node, hi]
  obtain ⟨-, hcmd, -⟩ := node_of_command h.cmds hc
  have hexpr : (s.node (i + 1)).symbolExpr = (G.node (i + 1)).symbolExpr := congrArg Prod.fst hcmd
  have hnum : (s.node (i + 1)).numSizes = (G.node (i + 1)).numSizes := congrArg Prod.snd hcmd
  rw [goodLines, EraseInfo.sizeList, List.flatMap_map, hnum, hexpr]
  refine List.flatMap_congr fun j hj => ?_
  obtain ⟨e, he, hke⟩ := hkey.all i _ hc j (List.mem_range.1 hj)
  obtain ⟨f, hf⟩ : ∃ f, G.filterInfo.find? (·.key = (i + 1, j)) = some f := by
    rw [← Option.isSome_iff_exists, List.find?_isSome]
    exact ⟨e, he, by simpa using hke⟩
  have hfk : f.key = (i + 1, j) := by simpa using List.find?_some hf
  have hprog := h.progress f (List.mem_of_find?_eq_some hf)
  rw [hf, Option.map_some, Option.getD_some, hprog.entryLines, hfk]
  rfl

@[simp] theorem textSize_nil : textSize [] = 0 := rfl

@[simp] theorem textSize_cons (t : String) (l : List String) :
    textSize (t :: l) = t.utf8ByteSize + textSize l := by simp [textSize]

@[simp] theorem textSize_append (l l' : List String) :
    textSize (l ++ l') = textSize l + textSize l' := by simp [textSize]

theorem length_flatMap_strBytes (l : List String) : (l.flatMap strBytes).length = textSize l := by
  induction l with
  | nil => rfl
  | cons t l ih => rw [List.flatMap_cons, List.length_append, ih, length_strBytes, textSize_cons]

theorem eraseLine_pos (expr size : String) : 0 < (eraseLine expr size).utf8ByteSize := by
  have h : "erase ".utf8ByteSize = 6 := by decide +kernel
  simp only [eraseLine, String.utf8ByteSize_append, h]
  omega

/-- Each size of a command has a text. -/
def AllSizes (sizes : List Int) : Prop := ∀ n ∈ sizes, (sizeText n).isSome

theorem commandLines_good {expr : String} : ∀ (size : String) {sizes : List Int}, AllSizes sizes →
    (commandLines expr size sizes).1 =
      sizes.flatMap fun n => ((sizeText n).map (eraseLine expr)).toList
  | _, [], _ => rfl
  | size, n :: sizes, h => by
    obtain ⟨t, ht⟩ := Option.isSome_iff_exists.1 (h n List.mem_cons_self)
    rw [commandLines, List.flatMap_cons, ht]
    dsimp only
    rw [commandLines_good _ fun m hm => h m (List.mem_cons_of_mem _ hm)]
    rfl

/-- A size of 0 gets a line of its own. -/
theorem commandLines_size {expr : String} : ∀ (size : String) (sizes : List Int),
    textSize (sizes.flatMap fun n => ((sizeText n).map (eraseLine expr)).toList) ≤
        textSize (commandLines expr size sizes).1 ∧
      (¬ AllSizes sizes →
        textSize (sizes.flatMap fun n => ((sizeText n).map (eraseLine expr)).toList) <
          textSize (commandLines expr size sizes).1)
  | _, [] => ⟨Nat.le_refl _, fun h => absurd (by simp [AllSizes]) h⟩
  | size, n :: sizes => by
    have ih := @commandLines_size expr ((sizeText n).getD size) sizes
    have hpos := eraseLine_pos expr ((sizeText n).getD size)
    rw [commandLines, List.flatMap_cons, textSize_append]
    dsimp only
    rw [textSize_cons]
    cases ht : sizeText n with
    | none =>
      rw [ht] at ih hpos
      simp only [Option.map_none, Option.toList_none, textSize_nil]
      exact ⟨by omega, fun _ => by omega⟩
    | some t =>
      rw [ht] at ih
      simp only [Option.map_some, Option.toList_some, textSize_cons, textSize_nil, Option.getD_some]
        at ih ⊢
      refine ⟨by omega, fun hno => ?_⟩
      have : ¬ AllSizes sizes := by
        intro hall
        refine hno fun m hm => ?_
        rcases List.mem_cons.1 hm with rfl | hm
        · rw [ht]
          rfl
        · exact hall m hm
      have := ih.2 this
      omega

theorem goodLines_of_not_erased {ei : EraseInfo} (h : ei.Ok) (he : ei.erased = false) :
    goodLines ei = [] := by
  have hnone : ei.sizes = none := by
    rw [h.erased] at he
    simpa using he
  rw [goodLines, EraseInfo.sizeList, hnone, List.flatMap_map]
  simp [sizeText]

theorem eraseLines_good : ∀ (size : String) {table : List EraseInfo}, (∀ ei ∈ table, ei.Ok) →
    (∀ ei ∈ table, ei.erased = true → AllSizes ei.sizeList) →
    eraseLines size table = table.flatMap goodLines
  | _, [], _, _ => rfl
  | size, ei :: table, hok, h => by
    have ih := fun size => eraseLines_good size
      (fun e he => hok e (List.mem_cons_of_mem _ he)) fun e he => h e (List.mem_cons_of_mem _ he)
    rw [eraseLines, List.flatMap_cons]
    cases he : ei.erased with
    | false =>
      rw [goodLines_of_not_erased (hok ei List.mem_cons_self) he]
      exact ih size
    | true =>
      simp only [Bool.not_true, Bool.false_eq_true, if_false]
      rw [ih, commandLines_good size (h ei List.mem_cons_self he)]
      rfl

theorem eraseLines_size : ∀ (size : String) {table : List EraseInfo}, (∀ ei ∈ table, ei.Ok) →
    textSize (table.flatMap goodLines) ≤ textSize (eraseLines size table) ∧
      ((∃ ei ∈ table, ei.erased = true ∧ ¬ AllSizes ei.sizeList) →
        textSize (table.flatMap goodLines) < textSize (eraseLines size table))
  | _, [], _ => ⟨Nat.le_refl _, by simp⟩
  | size, ei :: table, hok => by
    have ih := fun size => eraseLines_size size fun e he => hok e (List.mem_cons_of_mem _ he)
    rw [eraseLines, List.flatMap_cons, textSize_append]
    cases he : ei.erased with
    | false =>
      rw [goodLines_of_not_erased (hok ei List.mem_cons_self) he, textSize_nil, Nat.zero_add]
      refine ⟨(ih size).1, ?_⟩
      rintro ⟨e, hmem, her, hno⟩
      rcases List.mem_cons.1 hmem with rfl | hmem
      · rw [he] at her
        cases her
      · exact (ih size).2 ⟨e, hmem, her, hno⟩
    | true =>
      simp only [Bool.not_true, Bool.false_eq_true, if_false, textSize_append]
      obtain ⟨c1, c2⟩ := @commandLines_size ei.symbolExpr size ei.sizeList
      obtain ⟨i1, i2⟩ := ih (commandLines ei.symbolExpr size ei.sizeList).2
      refine ⟨Nat.add_le_add c1 i1, ?_⟩
      rintro ⟨e, hmem, her, hno⟩
      rcases List.mem_cons.1 hmem with rfl | hmem
      · exact Nat.add_lt_add_of_lt_of_le (c2 hno) i1
      · exact Nat.add_lt_add_of_le_of_lt c1 (i2 ⟨e, hmem, her, hno⟩)

/-- The text is right exactly when no erased command has an iteration of which nothing is erased. -/
theorem eraseLines_text_iff (size : String) {table : List EraseInfo} (hok : ∀ ei ∈ table, ei.Ok) :
    (eraseLines size table).flatMap strBytes = (table.flatMap goodLines).flatMap strBytes ↔
      ∀ ei ∈ table, ei.erased = true → AllSizes ei.sizeList := by
  constructor
  · intro h
    have hlen := congrArg List.length h
    rw [length_flatMap_strBytes, length_flatMap_strBytes] at hlen
    intro ei hei her
    apply Classical.byContradiction
    intro hno
    have := (eraseLines_size size hok).2 ⟨ei, hei, her, hno⟩
    omega
  · intro h
    rw [eraseLines_good size hok h]

/-! ## The dump -/

section
variable {c : Opts} {cd : CacheData} {o : Out} {base : Nat}

theorem writeLines_ok : ∀ (lines : List String) {stream : List UInt8} {cd : CacheData} {o : Out},
    NoFail c o → cd.fd = .file → CacheInv base stream cd o.file →
    ∃ cd' o', lines.foldlM (writeLine c) (cd, o) = some (cd', o') ∧ NoFail c o' ∧ cd'.fd = .file ∧
      CacheInv base (stream ++ lines.flatMap strBytes) cd' o'.file
  | [], stream, cd, o, hn, hfd, h => ⟨cd, o, rfl, hn, hfd, by simpa using h⟩
  | t :: lines, stream, cd, o, hn, hfd, h => by
    obtain ⟨cd1, o1, ch, e1, s1⟩ := writeCache_ok cd hn hfd (strBytes t)
    obtain ⟨cd2, o2, e2, hn2, hfd2, h2⟩ := writeLines_ok lines s1.noFail (s1.fd.trans hfd) (h.step s1)
    refine ⟨cd2, o2, ?_, hn2, hfd2, by rwa [List.append_assoc] at h2⟩
    rw [List.foldlM_cons, writeLine, e1]
    exact e2

/-- The text is in the file behind what the cache was given before. -/
theorem writeEraseinfo_ok (size : String) (table : List EraseInfo) {stream : List UInt8}
    (hn : NoFail c o) (hfd : cd.fd = .file) (h : CacheInv base stream cd o.file) :
    ∃ cd' o', writeEraseinfo c size table cd o =
        some (((eraseLines size table).flatMap strBytes).length, cd', o') ∧
      Holds o'.file (base + stream.length) ((eraseLines size table).flatMap strBytes) := by
  obtain ⟨cd1, o1, e1, hn1, hfd1, h1⟩ := writeLines_ok (eraseLines size table) hn hfd h
  obtain ⟨cd2, o2, ch, e2, s2, hb⟩ := writeCacheBufsz_ok cd1 hn1 hfd1
  obtain ⟨hw, -⟩ := (h1.step s2).flushed hb
  rw [List.append_nil, holds_append] at hw
  refine ⟨cd2, o2, ?_, hw.2⟩
  unfold writeEraseinfo
  dsimp only
  rw [e1, Option.bind_some, e2, length_flatMap_strBytes]

end

/-- **What is asked of the text**: behind the bytes that the cache was given before, the file gets the
lines of the entries of which something was erased, and their size is returned. `log` are the pieces
that were erased, `G` the commands and their entries. -/
def TellsErased (G : Filter) (log : List FilterInfo) (size : String) (table : List EraseInfo) :
    Prop :=
  ∀ (c : Opts) (cd : CacheData) (o : Out) (base : Nat) (stream : List UInt8), NoFail c o →
    cd.fd = .file → CacheInv base stream cd o.file →
    ∃ cd' o', writeEraseinfo c size table cd o =
        some (((specLines G log).flatMap strBytes).length, cd', o') ∧
      Holds o'.file (base + stream.length) ((specLines G log).flatMap strBytes)

theorem tellsErased_iff {G : Filter} {log : List FilterInfo} {size : String}
    {table : List EraseInfo} : TellsErased G log size table ↔
      (eraseLines size table).flatMap strBytes = (specLines G log).flatMap strBytes := by
  constructor
  · intro h
    -- an empty cache in front of an empty file
    have hn : NoFail {} ({} : Out) := ⟨rfl, rfl, fun r hr => by cases hr⟩
    have hinv : CacheInv 0 [] { fd := .file, cacheSize := 0, buf := [], offset := 0 }
      ({} : Out).file := cacheInv_init _ rfl _
    obtain ⟨cd1, o1, e1, hw1⟩ := h {} _ {} 0 [] hn rfl hinv
    obtain ⟨cd2, o2, e2, hw2⟩ := writeEraseinfo_ok size table hn rfl hinv
    have heq := Option.some.inj (e1.symm.trans e2)
    have hlen := congrArg Prod.fst heq
    have ho : o1 = o2 := congrArg (fun x => x.2.2) heq
    dsimp only at hlen
    unfold Holds at hw1 hw2
    rw [← hw2, ← hlen, ← ho, hw1]
  · intro h c cd o base stream hn hfd hinv
    rw [← h]
    exact writeEraseinfo_ok size table hn hfd hinv

section
variable (vaddrToPaddr : Nat → Nat) (reqs : List Request) (pageSize : Nat)

/-- Each command has all its entries on pages of the dump, or none. An entry is on the page where it
starts. -/
def AllOrNone (pages : List Nat) : Prop :=
  ∀ e ∈ (gatherFilterInfo vaddrToPaddr reqs).filterInfo,
    ∀ f ∈ (gatherFilterInfo vaddrToPaddr reqs).filterInfo, e.eraseInfoIdx = f.eraseInfoIdx →
      e.paddr / pageSize ∈ pages → f.paddr / pageSize ∈ pages

instance (pages : List Nat) : Decidable (AllOrNone vaddrToPaddr reqs pageSize pages) :=
  inferInstanceAs (Decidable (∀ e ∈ _, ∀ f ∈ _, _ → _ → _))

/-- The failed attempts passed no page on which an entry starts. -/
def ErasedNothing (failed : List (List Nat)) : Prop :=
  ∀ pages ∈ failed, ∀ e ∈ (gatherFilterInfo vaddrToPaddr reqs).filterInfo,
    e.paddr / pageSize ∉ pages

end

/-- Whether something of an entry is erased, in terms of the table. -/
theorem Run.sizeText_iff {G s : Filter} {log : List FilterInfo} {r : FilterInfo → Nat}
    (h : Run G.filterInfo (G.eraseInfo.map EraseInfo.command) s log r) {e : FilterInfo}
    (he : e ∈ G.filterInfo) : (Erase.sizeText (s.slot e.key)).isSome = true ↔ r e ≠ e.paddr := by
  rw [(h.progress e he).sizeText]
  split <;> simp_all

/-- A command is marked as erased exactly if something of one of its entries is. -/
theorem Run.erased_iff {G s : Filter} {log : List FilterInfo} {r : FilterInfo → Nat}
    (hkey : Keyed G.filterInfo (G.eraseInfo.map EraseInfo.command))
    (h : Run G.filterInfo (G.eraseInfo.map EraseInfo.command) s log r) {i : Nat} (hi : i ≠ 0) :
    (s.node i).erased = true ↔ ∃ e ∈ G.filterInfo, e.eraseInfoIdx = i ∧ r e ≠ e.paddr := by
  refine ⟨h.erased i hi, ?_⟩
  rintro ⟨e, he, rfl, hne⟩
  have hsome := (h.sizeText_iff he).2 hne
  obtain ⟨-, cmd, hc, -⟩ := hkey.command e he
  obtain ⟨hnode, -, -⟩ := node_of_command h.cmds hc
  rw [(h.ok _ hnode).erased]
  cases hs : (s.node e.eraseInfoIdx).sizes with
  | some l => rfl
  | none =>
    have hzero : s.slot e.key = 0 := by
      show (s.node e.eraseInfoIdx).slot e.sizeIdx = 0
      rw [EraseInfo.slot, hs]
      rfl
    rw [hzero] at hsome
    cases hsome

/-- The text of a run is right exactly if each command is erased in all its entries or in none. -/
theorem Run.text_iff {G s : Filter} {log : List FilterInfo} {r : FilterInfo → Nat}
    (hkey : Keyed G.filterInfo (G.eraseInfo.map EraseInfo.command))
    (h : Run G.filterInfo (G.eraseInfo.map EraseInfo.command) s log r) (size : String) :
    TellsErased G log size s.eraseInfo ↔ ∀ e ∈ G.filterInfo, ∀ f ∈ G.filterInfo,
      e.eraseInfoIdx = f.eraseInfoIdx → r e ≠ e.paddr → r f ≠ f.paddr := by
  rw [tellsErased_iff, h.specLines hkey, eraseLines_text_iff size h.ok]
  constructor
  · intro hall e he f hf hidx hne
    obtain ⟨hidx0, cmd, hc, hj⟩ := hkey.command f hf
    obtain ⟨hnode, hcmd, -⟩ := node_of_command h.cmds hc
    have herased : (s.node f.eraseInfoIdx).erased = true :=
      (h.erased_iff hkey hidx0).2 ⟨e, he, hidx, hne⟩
    rw [← h.sizeText_iff hf]
    refine hall _ hnode herased _ (List.mem_map.2 ⟨f.sizeIdx, List.mem_range.2 ?_, rfl⟩)
    exact hj.trans_eq (congrArg Prod.snd hcmd).symm
  · intro hall ei hei herased n hn
    obtain ⟨i, hi, rfl⟩ := List.mem_map.1 (eraseInfo_eq_range s ▸ hei)
    obtain ⟨j, hj, rfl⟩ := List.mem_map.1 hn
    obtain ⟨e, he, hidx, hne⟩ := (h.erased_iff hkey (Nat.succ_ne_zero i)).1 herased
    have hc : (G.eraseInfo.map EraseInfo.command)[i]? = some (s.node (i + 1)).command := by
      rw [← h.cmds]
      simp [Filter.node, List.mem_range.1 hi]
    obtain ⟨f, hf, hfk⟩ := hkey.all i _ hc j (List.mem_range.1 hj)
    have hfi : f.eraseInfoIdx = i + 1 := congrArg Prod.fst hfk
    have hsome := (h.sizeText_iff hf).2 (hall e he f hf (hidx.trans hfi.symm) hne)
    rw [hfk] at hsome
    exact hsome

section
variable {vaddrToPaddr : Nat → Nat} {reqs : List Request} {pageSize : Nat}

theorem text_iff_core (hp : 0 < pageSize) (hr : ∀ r ∈ reqs, r.IsSymbol) (mem : Nat → List UInt8)
    (size : String) {failed : List (List Nat)} (pages : List Nat)
    (hf : ErasedNothing vaddrToPaddr reqs pageSize failed) :
    TellsErased (gatherFilterInfo vaddrToPaddr reqs)
        (pagePieces pageSize pages (beforeLast vaddrToPaddr reqs pageSize mem failed)).1 size
        (createDumpfile vaddrToPaddr reqs pageSize mem failed pages).eraseInfo ↔
      AllOrNone vaddrToPaddr reqs pageSize pages := by
  have hG := @entered_gather vaddrToPaddr reqs hr
  obtain ⟨h1, h2⟩ := beforeLast_same hp hr mem hf
  have hinit := @Run.init (beforeLast vaddrToPaddr reqs pageSize mem failed) (by
    rw [h1, h2]
    exact hG.keyed) (by
    rw [h2]
    exact hG.fresh)
  rw [h1, h2] at hinit
  obtain ⟨r, hrun, hstarts⟩ := Run.pages (D := fun _ => False) hp hG.keyed pages hinit
    fun e he => by simp
  rw [List.nil_append] at hrun
  unfold createDumpfile
  rw [filterPages_pieces, hrun.text_iff hG.keyed size]
  have hin : ∀ e ∈ (gatherFilterInfo vaddrToPaddr reqs).filterInfo,
      r e ≠ e.paddr ↔ e.paddr / pageSize ∈ pages := fun e he => (hstarts e he).trans (by simp)
  constructor
  · intro h e he f hf hidx hpe
    exact (hin f hf).1 (h e he f hf hidx ((hin e he).2 hpe))
  · intro h e he f hf hidx hne
    exact (hin f hf).2 (h e he f hf hidx ((hin e he).1 hne))

end

/-- **The text tells what was erased** exactly if each command has all its entries on pages of the dump
or none, provided the failed attempts erased nothing. -/
theorem eraseinfo_text_iff (vaddrToPaddr : Nat → Nat) (reqs : List Request) (pageSize : Nat)
    (mem : Nat → List UInt8) (size : String) (failed : List (List Nat)) (pages : List Nat)
    (hp : 0 < pageSize) (hr : ∀ r ∈ reqs, r.IsSymbol)
    (hf : ErasedNothing vaddrToPaddr reqs pageSize failed) :
    TellsErased (gatherFilterInfo vaddrToPaddr reqs)
        (pagePieces pageSize pages (beforeLast vaddrToPaddr reqs pageSize mem failed)).1 size
        (createDumpfile vaddrToPaddr reqs pageSize mem failed pages).eraseInfo ↔
      AllOrNone vaddrToPaddr reqs pageSize pages :=
  text_iff_core hp hr mem size pages hf

/-! ## A loop with two iterations -/

/-- `erase x` for two objects on two pages. -/
def twoIterations : List Request := [.symbol 0 "x" 0x10 4 false, .symbol 0 "x" 0x1010 4 false]

theorem twoIterations_symbol : ∀ r ∈ twoIterations, r.IsSymbol := by
  intro r hr
  rcases List.mem_pair.1 hr with rfl | rfl
  · exact ⟨0, "x", 0x10, 4, false, rfl⟩
  · exact ⟨0, "x", 0x1010, 4, false, rfl⟩

/-- With both pages dumped the text is right. -/
theorem twoIterations_dumped : TellsErased (gatherFilterInfo id twoIterations)
    (pagePieces 4096 [0, 1] (beforeLast id twoIterations 4096 (fun _ => []) [])).1 ""
    (createDumpfile id twoIterations 4096 (fun _ => []) [] [0, 1]).eraseInfo :=
  (eraseinfo_text_iff id twoIterations 4096 (fun _ => []) "" [] [0, 1] (by decide)
    twoIterations_symbol (fun _ h => absurd h (List.not_mem_nil))).2 (by decide)

/-- With only the first page dumped there is a line for the second object. -/
theorem line_for_nothing : ¬ TellsErased (gatherFilterInfo id twoIterations)
    (pagePieces 4096 [0] (beforeLast id twoIterations 4096 (fun _ => []) [])).1 ""
    (createDumpfile id twoIterations 4096 (fun _ => []) [] [0]).eraseInfo := by
  intro h
  have hall := (text_iff_core (by decide) twoIterations_symbol (fun _ => []) "" [0]
    (fun _ h => absurd h (List.not_mem_nil))).1 h
  exact absurd hall (by decide)

end Erase
