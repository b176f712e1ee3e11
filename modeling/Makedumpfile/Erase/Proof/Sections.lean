import Makedumpfile.Erase.Proof.Commands
import Mathlib.Algebra.GroupWithZero.Nat

/-!
# Which commands are handed over

A layout is words and headers for the reader (`SectionsOn.events`). A section that is skipped is left at
its first command; when the end of that command was found by reading on, and it was the only one, the
reader has the first word of the next section at hand, which goes with the rest of the skipped one. So a
section is dropped (`delivered`), and the file hands over its commands exactly if no wanted section is
(`handsOver_iff`).
-/

namespace EraseConfig

open Lib

variable {loaded debuginfo : Modules}

/-! ## Lines -/

/-- A word between blanks is a word between blanks and tabs. -/
theorem words_tabs (l : Str) :
    words isBlank (l.map fun c => if c = '\t' then ' ' else c) =
      words (fun c => c = ' ' || c = '\t') l := by
  have hsplit : (l.map fun c => if c = '\t' then ' ' else c).splitOnP isBlank =
      l.splitOnP fun c => c = ' ' || c = '\t' := by
    induction l with
    | nil => rfl
    | cons c l ih =>
      rw [List.map_cons, List.splitOnP_cons_eq_if_modifyHead, List.splitOnP_cons_eq_if_modifyHead,
        ih]
      by_cases ht : c = '\t'
      · simp [ht, isBlank]
      · simp [ht, isBlank]
  rw [words, words, hsplit]

theorem takeWhile_ne {c : Char} {l : Str} (h : c ∉ l) : l.takeWhile (· ≠ c) = l :=
  List.takeWhile_eq_self_iff.mpr fun _ ha => decide_eq_true fun he => h (he ▸ ha)

theorem cleanLine_fits {line : Str} (h : FitsLine line) :
    cleanLine line = (line.takeWhile (· ≠ '#')).map fun c => if c = '\t' then ' ' else c := by
  rw [cleanLine, takeWhile_ne h.2.1, takeWhile_ne h.1]

/-- The newline does not count. -/
theorem cleanLine_newline {line : Str} (h : FitsLine line) :
    cleanLine (line ++ ['\n']) = cleanLine line := by
  have hnul : '\x00' ∉ line ++ ['\n'] := by
    simp [h.2.1]
  have hline : (line ++ ['\n']).takeWhile (· ≠ '\n') = line := by
    have hall : ∀ c ∈ line, decide (c ≠ '\n') = true := by
      intro c hc
      exact decide_eq_true fun he => h.1 (he ▸ hc)
    rw [List.takeWhile_append_of_pos hall]
    simp
  rw [cleanLine_fits h, cleanLine, takeWhile_ne hnul, hline]

/-- The events of a line of words. -/
theorem lineEvents_words {line : Str} (h : FitsLine line) (hh : line.head? ≠ some '[') :
    GoodLine line ∧ lineEvents line = (lineWords line).map .word := by
  have hclean := cleanLine_fits h
  have htext : ∀ rest, cleanLine line ≠ '[' :: rest := by
    intro rest hr
    rw [hclean] at hr
    cases line with
    | nil => cases hr
    | cons c line =>
      rw [List.takeWhile_cons] at hr
      split at hr
      · rw [List.map_cons, List.cons.injEq] at hr
        refine hh (congrArg some ?_)
        by_cases ht : c = '\t'
        · simp [ht] at hr
        · simpa [ht] using hr.1
      · cases hr
  refine ⟨fun rest hr => absurd hr (htext rest), ?_⟩
  rw [lineEvents_of_text htext, hclean, words_tabs, lineWords]

/-- The event of a header. -/
theorem lineEvents_header {modName line : Str} (h : IsHeader modName line) :
    GoodLine line ∧ lineEvents line = [.header modName] := by
  obtain ⟨hfit, hname, rest, rfl⟩ := h
  have hhash : ∀ c ∈ '[' :: modName, decide (c ≠ '#') = true := by
    intro c hc
    cases List.mem_cons.mp hc with
    | inl hc => rw [hc]; rfl
    | inr hc => exact decide_eq_true (hname c hc).2.1
  have hmap : modName.map (fun c => if c = '\t' then ' ' else c) = modName := by
    conv_rhs => rw [← List.map_id modName]
    exact List.map_congr_left fun c hc => if_neg (hname c hc).2.2
  obtain ⟨rest', hclean⟩ : ∃ rest', cleanLine ('[' :: modName ++ ']' :: rest) =
      '[' :: (modName ++ ']' :: rest') := by
    rw [cleanLine_fits hfit, List.takeWhile_append_of_pos hhash, List.takeWhile_cons,
      if_pos (by decide)]
    refine ⟨(rest.takeWhile (· ≠ '#')).map fun c => if c = '\t' then ' ' else c, ?_⟩
    rw [List.map_append, List.map_cons, List.map_cons, hmap]
    rfl
  have htake : (modName ++ ']' :: rest').takeWhile (· ≠ ']') = modName := by
    rw [List.takeWhile_append_of_pos fun c hc => decide_eq_true (hname c hc).1]
    simp
  refine ⟨fun r hr => ?_, ?_⟩
  · rw [hclean, List.cons.injEq] at hr
    rw [← hr.2]
    exact List.mem_append_right _ List.mem_cons_self
  · rw [lineEvents_of_head hclean, htake]

/-! ## The file -/

theorem fgetsAll_line {n : Nat} (line acc rest : List Char) (h : '\n' ∉ line)
    (hlen : acc.length + line.length + 1 < n) :
    fgetsAll n (line ++ '\n' :: rest) acc =
      (acc.reverse ++ line ++ ['\n']) :: fgetsAll n rest [] := by
  induction line generalizing acc with
  | nil => simp [fgetsAll]
  | cons c line ih =>
    rw [List.length_cons] at hlen
    have hc : ¬ (c = '\n' ∨ acc.length + 2 = n) := by
      rintro (he | he)
      · exact h (he ▸ List.mem_cons_self)
      · omega
    rw [List.cons_append, fgetsAll, if_neg hc,
      ih (c :: acc) (fun hm => h (List.mem_cons_of_mem _ hm)) (by rw [List.length_cons]; omega)]
    simp

/-- The last line, without a newline. -/
theorem fgetsAll_last {n : Nat} (line acc : List Char) (h : '\n' ∉ line)
    (hlen : acc.length + line.length + 1 < n) :
    fgetsAll n line acc = if acc.reverse ++ line = [] then [] else [acc.reverse ++ line] := by
  induction line generalizing acc with
  | nil =>
    rw [fgetsAll, List.append_nil]
    simp
  | cons c line ih =>
    rw [List.length_cons] at hlen
    have hc : ¬ (c = '\n' ∨ acc.length + 2 = n) := by
      rintro (he | he)
      · exact h (he ▸ List.mem_cons_self)
      · omega
    rw [fgetsAll, if_neg hc,
      ih (c :: acc) (fun hm => h (List.mem_cons_of_mem _ hm)) (by rw [List.length_cons]; omega)]
    simp

/-- **The lines that are read** have the events of the lines of the file. -/
theorem fgetsAll_events {lines : List Str} {content : List Char} (h : IsFile lines content)
    (hfit : ∀ line ∈ lines, FitsLine line) (hgood : ∀ line ∈ lines, GoodLine line) :
    (∀ buf ∈ fgetsAll bufsizeFgets content [], GoodLine buf) ∧
      (fgetsAll bufsizeFgets content []).flatMap lineEvents = lines.flatMap lineEvents := by
  induction lines generalizing content with
  | nil =>
    cases h with
    | inl h =>
      rw [h]
      exact ⟨by simp [fgetsAll], rfl⟩
    | inr h => simp at h
  | cons line lines ih =>
    obtain ⟨hline, hlines⟩ := List.forall_mem_cons.mp hfit
    obtain ⟨hgline, hglines⟩ := List.forall_mem_cons.mp hgood
    have hclean := cleanLine_newline hline
    have hlen : ([] : List Char).length + line.length + 1 < bufsizeFgets := by
      simpa using hline.2.2
    -- the line has its newline, or is the last one
    obtain ⟨content', hcontent, hfile⟩ | ⟨rfl, hnil⟩ :
        (∃ content', content = line ++ '\n' :: content' ∧ IsFile lines content') ∨
          (content = line ∧ lines = []) := by
      cases h with
      | inl h =>
        refine .inl ⟨lines.flatMap (· ++ ['\n']), ?_, .inl rfl⟩
        rw [h, List.flatMap_cons, List.append_assoc]
        rfl
      | inr h =>
        rw [List.flatMap_cons, List.append_assoc, List.singleton_append] at h
        rcases List.eq_nil_or_concat lines with rfl | ⟨lines', last, rfl⟩
        · exact .inr ⟨List.append_cancel_right h, rfl⟩
        · rw [List.concat_eq_append, List.flatMap_append, List.flatMap_singleton, ← List.cons_append,
            ← List.append_assoc, ← List.append_assoc] at h
          refine .inl ⟨lines'.flatMap (· ++ ['\n']) ++ last, ?_, .inr ?_⟩
          · rw [List.append_cancel_right h]
            simp
          · simp
    · rw [hcontent, fgetsAll_line line [] content' hline.1 hlen]
      obtain ⟨hg, he⟩ := ih hfile hlines hglines
      refine ⟨List.forall_mem_cons.mpr ⟨?_, hg⟩, ?_⟩
      · intro rest hr
        exact hgline rest (hclean ▸ hr)
      · rw [List.flatMap_cons, List.flatMap_cons, he, List.reverse_nil, List.nil_append]
        congr 1
        simp only [lineEvents, hclean]
    · rw [fgetsAll_last content [] hline.1 hlen, hnil]
      split
      · rename_i he
        have hc : content = [] := he
        rw [hc]
        exact ⟨fun _ h => absurd h List.not_mem_nil, rfl⟩
      · exact ⟨List.forall_mem_cons.mpr ⟨hgline, fun _ h => absurd h List.not_mem_nil⟩, rfl⟩

/-! ## The words of a layout -/

def cmdEvents (cmds : List Command) : List Ev := (cmds.flatMap Command.words).map .word

def Section.events (s : Section) : List Ev := .header s.modName :: cmdEvents s.cmds

theorem OnLines.events {ws : List Str} {lines : List Str} (h : OnLines ws lines) :
    (∀ line ∈ lines, FitsLine line ∧ GoodLine line) ∧
      lines.flatMap lineEvents = ws.map .word := by
  obtain ⟨hlines, rfl⟩ := h
  refine ⟨fun line hl => ⟨(hlines line hl).1, ?_⟩, ?_⟩
  · exact (lineEvents_words (hlines line hl).1 (hlines line hl).2).1
  · rw [List.map_flatMap]
    exact List.flatMap_congr fun line hl =>
      (lineEvents_words (hlines line hl).1 (hlines line hl).2).2

theorem SectionsOn.events {ss : List Section} {lines : List Str} (h : SectionsOn ss lines) :
    (∀ line ∈ lines, FitsLine line ∧ GoodLine line) ∧
      lines.flatMap lineEvents = ss.flatMap Section.events := by
  induction h with
  | nil => exact ⟨nofun, rfl⟩
  | cons hhead hbody _ ih =>
    obtain ⟨hgood, hev⟩ := lineEvents_header hhead
    refine ⟨List.forall_mem_cons.mpr ⟨⟨hhead.1, hgood⟩, fun line hl => ?_⟩, ?_⟩
    · cases List.mem_append.mp hl with
      | inl hl => exact hbody.events.1 line hl
      | inr hl => exact ih.1 line hl
    · rw [List.flatMap_cons, List.flatMap_append, hev, hbody.events.2, ih.2]
      rfl

/-! ## The next command -/

abbrev Next := Option (Option Str × Str × List Ev)

def Ahead.next (a : Ahead) : Option Str × Str × List Ev := (a.cur, a.word, a.rest)

/-- The command `c` is next. -/
def Command.next (m : Option Str) (c : Command) (evs : List Ev) : Option Str × Str × List Ev :=
  (m, c.words.headD [], c.words.tail.map .word ++ evs)

variable (loaded) in
/-- The next command of the sections. -/
def nextCmd : Bool → List Section → Next
  | _, [] => none
  | dropping, s :: ss =>
    if s.silent loaded then nextCmd dropping ss
    else if dropping then nextCmd false ss
    else s.cmds.head?.map fun c =>
      c.next (some s.modName) (cmdEvents s.cmds.tail ++ ss.flatMap Section.events)

variable (loaded) in
/-- The next command, at the commands `cmds` of the section `m`. -/
def beginsWith (m : Option Str) (cmds : List Command) (ss : List Section) : Next :=
  match cmds with
  | [] => nextCmd loaded false ss
  | c :: cs => some (c.next m (cmdEvents cs ++ ss.flatMap Section.events))

variable {skip : Bool} {cur m : Option Str} {evs : List Ev} {fc : FilterConfig}

theorem Command.words_eq (c : Command) : c.words = c.words.headD [] :: c.words.tail := by
  cases c with
  | erase c => rfl
  | loop id list part erases => rfl

theorem cmdEvents_cons (c : Command) (cs : List Command) (evs : List Ev) :
    cmdEvents (c :: cs) ++ evs =
      .word (c.words.headD []) :: (c.words.tail.map .word ++ (cmdEvents cs ++ evs)) := by
  conv_lhs => rw [cmdEvents, List.flatMap_cons, c.words_eq]
  simp [cmdEvents]

theorem settle_cmds (c : Command) (cs : List Command) (hr : readable loaded m = true) :
    settle loaded false m (cmdEvents (c :: cs) ++ evs) =
      some { cur := m, new := false, word := c.words.headD []
             rest := c.words.tail.map .word ++ (cmdEvents cs ++ evs) } := by
  rw [cmdEvents_cons, settle_word hr]

/-- The words of a section that is skipped, or whose module is not loaded. -/
theorem settle_skipped (cmds : List Command) (h : (skip || !readable loaded m) = true) :
    settle loaded skip m (cmdEvents cmds ++ evs) = settle loaded skip m evs :=
  settle_words h _

theorem readable_section (s : Section) :
    readable loaded (some s.modName) = isModuleLoaded loaded s.modName := rfl

/-- A section with a command that is read. -/
theorem not_silent {s : Section} (h : ¬ s.silent loaded = true) :
    readable loaded (some s.modName) = true ∧ ∃ c cs, s.cmds = c :: cs := by
  simp only [Section.silent, Bool.or_eq_true, Bool.not_eq_true', not_or, Bool.not_eq_false] at h
  refine ⟨h.1, ?_⟩
  cases hc : s.cmds with
  | nil => exact absurd (by rw [hc]; rfl) h.2
  | cons c cs => exact ⟨c, cs, rfl⟩

theorem settle_silent {s : Section} (h : s.silent loaded = true) :
    settle loaded false (some s.modName) (cmdEvents s.cmds ++ evs) =
      settle loaded false (some s.modName) evs := by
  simp only [Section.silent, Bool.or_eq_true, Bool.not_eq_true'] at h
  cases h with
  | inl h => exact settle_skipped s.cmds (by rw [readable_section, h]; rfl)
  | inr h =>
    rw [List.isEmpty_iff.mp h]
    rfl

/-- Ahead of sections is their next command, and a header is before it. -/
theorem settle_sections (ss : List Section) (skip : Bool) (cur : Option Str) :
    (settle loaded skip cur (ss.flatMap Section.events)).map Ahead.next =
        nextCmd loaded false ss ∧
      ∀ a, settle loaded skip cur (ss.flatMap Section.events) = some a → a.new = true := by
  induction ss generalizing skip cur with
  | nil => exact ⟨rfl, nofun⟩
  | cons s ss ih =>
    rw [List.flatMap_cons, Section.events, List.cons_append, settle_header, Option.map_map]
    constructor
    · by_cases hs : s.silent loaded = true
      · rw [settle_silent hs, nextCmd, if_pos hs, ← (ih false (some s.modName)).1]
        rfl
      · obtain ⟨hr, c, cs, hc⟩ := not_silent hs
        rw [nextCmd, if_neg hs, hc, settle_cmds c cs hr]
        rfl
    · intro a ha
      obtain ⟨b, -, rfl⟩ := Option.map_eq_some_iff.mp ha
      rfl

/-- The reader that has the first word of the sections at hand, and skips it, goes to the section
behind. -/
theorem settle_dropping (loaded : Modules) (ss : List Section) (cur : Option Str) :
    match settle loaded false cur (ss.flatMap Section.events) with
    | none => nextCmd loaded true ss = none
    | some a => (settle loaded true a.cur (.word a.word :: a.rest)).map Ahead.next =
        nextCmd loaded true ss := by
  induction ss generalizing cur with
  | nil => rfl
  | cons s ss ih =>
    rw [List.flatMap_cons, Section.events, List.cons_append, settle_header]
    by_cases hs : s.silent loaded = true
    · rw [settle_silent hs, nextCmd, if_pos hs]
      have h := ih (some s.modName)
      cases hset : settle loaded false (some s.modName) (ss.flatMap Section.events) with
      | none =>
        rw [hset] at h
        exact h
      | some a =>
        rw [hset] at h
        exact h
    · obtain ⟨hr, c, cs, hc⟩ := not_silent hs
      rw [nextCmd, if_neg hs, if_pos rfl, hc, settle_cmds c cs hr]
      dsimp only [Option.map_some]
      rw [← cmdEvents_cons, settle_skipped (c :: cs) rfl]
      exact (settle_sections ss true (some s.modName)).1

/-! ## Behind a command -/

/-- Without the skip flag the reader goes on. -/
theorem After.ready {readsOn : Bool} {cs : List Command} {ss : List Section}
    (h : After loaded readsOn fc m (cmdEvents cs ++ ss.flatMap Section.events))
    (hr : readable loaded m = true) :
    Ready loaded false fc (beginsWith loaded m cs ss) := by
  have hnext : (settle loaded false m (cmdEvents cs ++ ss.flatMap Section.events)).map
      Ahead.next = beginsWith loaded m cs ss := by
    cases cs with
    | nil => exact (settle_sections ss false m).1
    | cons c cs =>
      rw [settle_cmds c cs hr]
      rfl
  unfold After at h
  split at h
  · unfold Looked at h
    rw [← hnext]
    cases hset : settle loaded false m (cmdEvents cs ++ ss.flatMap Section.events) with
    | none =>
      rw [hset] at h
      obtain ⟨cur', new', h⟩ := h
      exact ⟨_, _, _, h, rfl⟩
    | some a =>
      rw [hset] at h
      refine ⟨_, _, _, h, ?_⟩
      rw [settle_word (readable_of_settle hset)]
      rfl
  · exact ⟨_, _, _, h, hnext⟩

/-- **With the skip flag** the rest of the section is left out; when the reader has gone on to the next
one, that is left out too. -/
theorem After.ready_skip {readsOn : Bool} {cs : List Command} {ss : List Section}
    (h : After loaded readsOn fc m (cmdEvents cs ++ ss.flatMap Section.events))
    (hr : readable loaded m = true) :
    Ready loaded true fc (nextCmd loaded (readsOn && cs.isEmpty) ss) := by
  unfold After at h
  cases readsOn with
  | false =>
    refine ⟨_, _, _, h, ?_⟩
    rw [settle_skipped cs rfl]
    exact (settle_sections ss true m).1
  | true =>
    rw [if_pos rfl] at h
    cases cs with
    | nil =>
      have hdrop := settle_dropping loaded ss m
      unfold Looked at h
      rw [show cmdEvents [] ++ ss.flatMap Section.events = ss.flatMap Section.events from rfl] at h
      cases hset : settle loaded false m (ss.flatMap Section.events) with
      | none =>
        rw [hset] at h hdrop
        obtain ⟨cur', new', h⟩ := h
        exact ⟨_, _, _, h, hdrop.symm⟩
      | some a =>
        rw [hset] at h hdrop
        exact ⟨_, _, _, h, hdrop⟩
    | cons c cs =>
      rw [Looked, settle_cmds c cs hr] at h
      refine ⟨_, _, _, h, ?_⟩
      dsimp only
      rw [← cmdEvents_cons, settle_skipped (c :: cs) rfl]
      exact (settle_sections ss true m).1

/-! ## The run -/

/-- The rounds that are enough for a command. -/
def Command.rounds : Command → Nat
  | .erase _ => 1
  | .loop _ _ _ erases => erases.length + 1

theorem Command.rounds_pos (c : Command) : 0 < c.rounds := by
  cases c with
  | erase c => exact Nat.one_pos
  | loop id list part erases => exact Nat.succ_pos _

def roundsOf (cmds : List Command) : Nat := (cmds.map Command.rounds).sum

variable (loaded debuginfo) in
/-- The configurations that are handed over. -/
def delivered : Bool → List Section → List Config
  | _, [] => []
  | dropping, s :: ss =>
    if s.silent loaded then delivered dropping ss
    else if dropping then delivered false ss
    else if s.wanted loaded debuginfo then s.configs ++ delivered false ss
    else delivered s.readsOn ss

theorem config_moduleName (m : Option Str) (c : Command) : (c.config m).moduleName = m := by
  cases c with
  | erase c => rfl
  | loop id list part erases => rfl

theorem nextNot_sections {ss : List Section} (e : Str) :
    NextNot loaded m (ss.flatMap Section.events) e :=
  fun a ha => .inl ((settle_sections ss false m).2 a ha)

/-- No command begins with a word that may follow a command. -/
theorem nextNot_cmds {ss : List Section} (hr : readable loaded m = true) (cs : List Command)
    {e : Str} (herase : e ≠ kwErase) (hfor : e ≠ kwFor) :
    NextNot loaded m (cmdEvents cs ++ ss.flatMap Section.events) e := by
  cases cs with
  | nil => exact nextNot_sections e
  | cons c cs =>
    intro a ha
    rw [settle_cmds c cs hr] at ha
    cases ha
    cases c with
    | erase c => exact .inr herase
    | loop id list part erases => exact .inr hfor

/-- A round of the loop reads the next command. -/
theorem getConfig_next {c : Command} {cs : List Command} {ss : List Section} {rounds : Nat}
    (hok : c.Ok) (hr : readable loaded m = true) (hrounds : c.rounds ≤ rounds)
    (hready : Ready loaded skip fc (beginsWith loaded m (c :: cs) ss)) :
    ∃ fc', getConfig loaded rounds skip fc = some (c.config m, fc') ∧
      After loaded c.readsOn fc' m (cmdEvents cs ++ ss.flatMap Section.events) := by
  refine getConfig_spec hok ?_ hready hr (nextNot_cmds hr cs (by decide) (by decide))
    (nextNot_cmds hr cs (by decide) (by decide))
  rintro id list part erases rfl
  exact hrounds

/-- **The commands of a section** that is to be processed, and what `rest` comes behind it. -/
theorem processConfigFile_cmds {ss : List Section} {need : Nat} {rest : List Config}
    (hr : readable loaded m = true) (hdebug : hasDebuginfo debuginfo m = true)
    (hrest : ∀ skip fc rounds, Ready loaded skip fc (nextCmd loaded false ss) → need < rounds →
      processConfigFile loaded debuginfo rounds skip fc = some rest)
    (cmds : List Command) (hok : ∀ c ∈ cmds, c.Ok) (skip : Bool) (fc : FilterConfig) (rounds : Nat)
    (hready : Ready loaded skip fc (beginsWith loaded m cmds ss))
    (hrounds : roundsOf cmds + need < rounds) :
    processConfigFile loaded debuginfo rounds skip fc =
      some (cmds.map (Command.config m) ++ rest) := by
  induction cmds generalizing skip fc rounds with
  | nil =>
    rw [roundsOf, List.map_nil, List.sum_nil, Nat.zero_add] at hrounds
    exact hrest skip fc rounds hready hrounds
  | cons c cs ih =>
    obtain ⟨hc, hcs⟩ := List.forall_mem_cons.mp hok
    rw [roundsOf, List.map_cons, List.sum_cons, Nat.add_assoc] at hrounds
    obtain ⟨rounds, rfl⟩ : ∃ n, rounds = n + 1 := ⟨rounds - 1, by omega⟩
    have hpos := c.rounds_pos
    have hle : c.rounds ≤ rounds := by omega
    obtain ⟨fc', hget, hafter⟩ := getConfig_next hc hr hle hready
    have hmod : (c.config m).moduleName = m := config_moduleName m c
    have hrun := ih hcs false fc' rounds (hafter.ready hr) (by rw [roundsOf]; omega)
    rw [processConfigFile, hget]
    dsimp only
    rw [hmod, if_pos hdebug, hrun]
    rfl

theorem hasDebuginfo_section (debuginfo : Modules) {s : Section} (hs : ¬ s.silent loaded = true) :
    hasDebuginfo debuginfo (some s.modName) = s.wanted loaded debuginfo := by
  have hload : (s.modName = vmlinux || loaded s.modName) = true := (not_silent hs).1
  rw [Section.wanted, hasDebuginfo]
  by_cases hv : s.modName = vmlinux
  · simp [hv]
  · simpa [hv] using fun _ => hload

/-- **The sections.** -/
theorem processConfigFile_sections (ss : List Section) (hok : ∀ s ∈ ss, ∀ c ∈ s.cmds, c.Ok)
    (dropping skip : Bool) (fc : FilterConfig) (rounds : Nat)
    (hready : Ready loaded skip fc (nextCmd loaded dropping ss))
    (hrounds : (ss.map fun s => roundsOf s.cmds).sum < rounds) :
    processConfigFile loaded debuginfo rounds skip fc =
      some (delivered loaded debuginfo dropping ss) := by
  induction ss generalizing dropping skip fc rounds with
  | nil =>
    obtain ⟨rounds, rfl⟩ : ∃ n, rounds = n + 1 := ⟨rounds - 1, by omega⟩
    rw [processConfigFile, getConfig_end hready]
    rfl
  | cons s ss ih =>
    obtain ⟨hs, hss⟩ := List.forall_mem_cons.mp hok
    rw [List.map_cons, List.sum_cons] at hrounds
    unfold nextCmd at hready
    unfold delivered
    split at hready
    case isTrue hsilent =>
      rw [if_pos hsilent]
      exact ih hss dropping skip fc rounds hready (by omega)
    case isFalse hsilent =>
    rw [if_neg hsilent]
    split at hready
    case isTrue hdrop =>
      rw [if_pos hdrop]
      exact ih hss false skip fc rounds hready (by omega)
    case isFalse hdrop =>
    obtain ⟨hr, c, cs, hc⟩ := not_silent hsilent
    have hbegin : Ready loaded skip fc (beginsWith loaded (some s.modName) (c :: cs) ss) := by
      rw [hc] at hready
      exact hready
    have hdebug := hasDebuginfo_section debuginfo hsilent
    rw [if_neg hdrop]
    by_cases hw : s.wanted loaded debuginfo = true
    · rw [if_pos hw, Section.configs, hc]
      exact processConfigFile_cmds hr (hdebug.trans hw)
        (fun skip fc rounds => ih hss false skip fc rounds) (c :: cs) (hc ▸ hs) skip fc rounds hbegin
        (hc ▸ hrounds)
    · -- the section is left at its first command
      rw [if_neg hw]
      rw [hc] at hs hrounds
      obtain ⟨hcok, -⟩ := List.forall_mem_cons.mp hs
      rw [roundsOf, List.map_cons, List.sum_cons] at hrounds
      obtain ⟨rounds, rfl⟩ : ∃ n, rounds = n + 1 := ⟨rounds - 1, by omega⟩
      have hpos := c.rounds_pos
      have hle : c.rounds ≤ rounds := by omega
      obtain ⟨fc', hget, hafter⟩ := getConfig_next hcok hr hle hbegin
      have hreads : s.readsOn = (c.readsOn && cs.isEmpty) := by
        unfold Section.readsOn
        rw [hc]
        cases c with
        | erase c =>
          cases cs with
          | nil => simp [Command.readsOn]
          | cons c' cs => simp
        | loop id list part erases => rfl
      have hrun := ih hss s.readsOn true fc' rounds (hreads ▸ hafter.ready_skip hr) (by omega)
      have hmod : (c.config (some s.modName)).moduleName = some s.modName := config_moduleName _ c
      rw [processConfigFile, hget]
      dsimp only
      rw [hmod, if_neg (by rw [hdebug]; exact hw), hrun]

/-- **What is handed over** for a file. -/
theorem processFile_delivered (loaded debuginfo : Modules) {src : Source} {content : List Char} (hok : src.Ok)
    (hlay : src.LaidOut content) :
    ∃ n, ∀ rounds ≥ n, processFile loaded debuginfo rounds content =
      some (src.pre.map (Command.config none) ++ delivered loaded debuginfo false src.sections) := by
  obtain ⟨pre, lines, hpre, hlines, hfile⟩ := hlay
  obtain ⟨hgood, hev⟩ := hpre.events
  obtain ⟨hgood', hev'⟩ := hlines.events
  have hall : ∀ line ∈ pre ++ lines, FitsLine line ∧ GoodLine line := by
    intro line hl
    cases List.mem_append.mp hl with
    | inl hl => exact hgood line hl
    | inr hl => exact hgood' line hl
  obtain ⟨hbufs, hevs⟩ := fgetsAll_events hfile (fun l hl => (hall l hl).1) fun l hl => (hall l hl).2
  have hsees : After loaded false { file := fgetsAll bufsizeFgets content [] } none
      (cmdEvents src.pre ++ src.sections.flatMap Section.events) := by
    refine ⟨⟨hbufs, nofun, nofun⟩, rfl, rfl, ?_⟩
    rw [view, List.nil_append, hevs, List.flatMap_append, hev, hev']
    rfl
  have hready : Ready loaded false { file := fgetsAll bufsizeFgets content [] }
      (beginsWith loaded none src.pre src.sections) := hsees.ready rfl
  refine ⟨roundsOf src.pre + (src.sections.map fun s => roundsOf s.cmds).sum + 1, ?_⟩
  intro rounds hrounds
  exact processConfigFile_cmds rfl rfl
    (fun skip fc rounds => processConfigFile_sections src.sections hok.2 false skip fc rounds)
    src.pre hok.1 false _ rounds hready hrounds

/-! ## What is lost -/

theorem delivered_sublist (loaded debuginfo : Modules) (dropping : Bool) (ss : List Section) :
    (delivered loaded debuginfo dropping ss).Sublist
      ((ss.filter (Section.wanted loaded debuginfo)).flatMap Section.configs) := by
  induction ss generalizing dropping with
  | nil => exact List.Sublist.refl _
  | cons s ss ih =>
    have hskip : ∀ d, (delivered loaded debuginfo d ss).Sublist
        (((s :: ss).filter (Section.wanted loaded debuginfo)).flatMap Section.configs) := by
      intro d
      refine (ih d).trans ?_
      rw [List.filter_cons]
      split
      · rw [List.flatMap_cons]
        exact List.sublist_append_right _ _
      · exact List.Sublist.refl _
    unfold delivered
    split
    · exact hskip dropping
    split
    · exact hskip false
    split
    case isTrue hw =>
      rw [List.filter_cons, if_pos hw, List.flatMap_cons]
      exact (ih false).append_left _
    case isFalse hw => exact hskip s.readsOn

theorem configs_silent {s : Section} (hs : s.silent loaded = true)
    (hw : s.wanted loaded debuginfo = true) : s.configs = [] := by
  have hload : isModuleLoaded loaded s.modName = true := by
    simp only [Section.wanted, Bool.or_eq_true, Bool.and_eq_true] at hw
    rw [isModuleLoaded, Bool.or_eq_true]
    exact hw.imp_right And.left
  rw [Section.silent, hload] at hs
  rw [Section.configs, List.isEmpty_iff.mp hs]
  rfl

/-- Everything is handed over exactly if no wanted section is dropped. -/
theorem delivered_eq_iff (dropping : Bool) (ss : List Section) :
    delivered loaded debuginfo dropping ss =
        (ss.filter (Section.wanted loaded debuginfo)).flatMap Section.configs ↔
      NoneLost loaded debuginfo dropping ss := by
  induction ss generalizing dropping with
  | nil => exact iff_of_true rfl trivial
  | cons s ss ih =>
    unfold delivered NoneLost
    rw [List.filter_cons]
    by_cases hs : s.silent loaded = true
    · rw [if_pos hs, if_pos hs, ← ih]
      by_cases hw : s.wanted loaded debuginfo = true
      · rw [if_pos hw, List.flatMap_cons, configs_silent hs hw, List.nil_append]
      · rw [if_neg hw]
    rw [if_neg hs, if_neg hs]
    obtain ⟨-, c, cs, hc⟩ := not_silent hs
    by_cases hd : dropping = true
    · rw [if_pos hd, if_pos hd, ← ih]
      by_cases hw : s.wanted loaded debuginfo = true
      · -- a wanted section has a configuration, and the others are no more than wanted
        rw [if_pos hw, List.flatMap_cons]
        refine iff_of_false (fun heq => ?_) fun h => Bool.false_ne_true (h.1.symm.trans hw)
        have hlen := (delivered_sublist loaded debuginfo false ss).length_le
        have hpos : s.configs.length = cs.length + 1 := by
          rw [Section.configs, List.length_map, hc, List.length_cons]
        rw [heq, List.length_append] at hlen
        omega
      · rw [if_neg hw]
        exact (and_iff_right (Bool.eq_false_iff.mpr hw)).symm
    rw [if_neg hd, if_neg hd]
    by_cases hw : s.wanted loaded debuginfo = true
    · rw [if_pos hw, if_pos hw, if_pos hw, List.flatMap_cons, List.append_cancel_left_eq, ih]
    · rw [if_neg hw, if_neg hw, if_neg hw, ih]

/-- The modules `m` and `n`, an erase command for each. -/
def twoModules : Source where
  pre := []
  sections :=
    [{ modName := ['m'], cmds := [.erase { symbol := ['a'], part := .plain }] },
      { modName := ['n'], cmds := [.erase { symbol := ['b'], part := .plain }] }]

def twoModulesFile : List Char :=
  ['[', 'm', ']', '\n', 'e', 'r', 'a', 's', 'e', ' ', 'a', '\n',
    '[', 'n', ']', '\n', 'e', 'r', 'a', 's', 'e', ' ', 'b', '\n']

theorem twoModules_ok : twoModules.Ok := by
  have hcmd : ∀ t : Str, IsSymbol .filter t →
      Command.Ok (.erase { symbol := t, part := .plain }) := by
    intro t ht
    exact ⟨ht, nofun, nofun⟩
  have ha : IsSymbol .filter ['a'] := ⟨by decide, by decide⟩
  have hb : IsSymbol .filter ['b'] := ⟨by decide, by decide⟩
  simpa [Source.Ok, twoModules] using And.intro (hcmd _ ha) (hcmd _ hb)

theorem twoModules_laidOut : twoModules.LaidOut twoModulesFile := by
  have hline : ∀ t : Str, FitsLine (kwErase ++ ' ' :: t) → lineWords (kwErase ++ ' ' :: t) =
      [kwErase, t] → OnLines [kwErase, t] [kwErase ++ ' ' :: t] := by
    intro t hfit hw
    refine ⟨fun l hl => ?_, by simpa using hw⟩
    rw [List.mem_singleton.mp hl]
    exact ⟨hfit, by simp [kwErase]⟩
  refine ⟨[], [['[', 'm', ']'], kwErase ++ [' ', 'a'], ['[', 'n', ']'], kwErase ++ [' ', 'b']],
    ⟨nofun, rfl⟩, ?_, .inl rfl⟩
  have hm : IsHeader ['m'] ['[', 'm', ']'] :=
    ⟨⟨by decide, by decide, by simp [bufsizeFgets]⟩, by simp, [], rfl⟩
  have hn : IsHeader ['n'] ['[', 'n', ']'] :=
    ⟨⟨by decide, by decide, by simp [bufsizeFgets]⟩, by simp, [], rfl⟩
  have ha := hline ['a'] ⟨by decide, by decide, by simp [bufsizeFgets, kwErase]⟩ (by decide)
  have hb := hline ['b'] ⟨by decide, by decide, by simp [bufsizeFgets, kwErase]⟩ (by decide)
  have hsec : SectionsOn [twoModules.sections[1]] _ :=
    @SectionsOn.cons twoModules.sections[1] _ _ _ _ hn hb .nil
  exact @SectionsOn.cons twoModules.sections[0] _ _ _ _ hm ha hsec

end EraseConfig
