import Makedumpfile.Erase.Config

/-!
# Reading the configuration

What the reader still has in front of it is a list of words and section headers (`view`), and a call of
`get_config_token` goes to the first word of a section that can be read (`settle`). So the reading of a
command is about words only (`get_expected`, `get_other`), and its last look ahead is the one place
where the reader may have left the section of the command (`Looked`).
-/

namespace EraseConfig

open Lib

/-! ## Words and headers -/

/-- What there is in a file. -/
inductive Ev
  | word (t : Str)
  | header (modName : Str)
  deriving Repr, DecidableEq

/-- The line is no header without a closing bracket. -/
def GoodLine (buf : Str) : Prop := ∀ rest, cleanLine buf = '[' :: rest → ']' ∈ rest

def lineEvents (buf : Str) : List Ev :=
  match cleanLine buf with
  | '[' :: rest => [.header (rest.takeWhile (· ≠ ']'))]
  | line => (words isBlank line).map .word

/-- The first word that can be read, with the section it is in, whether a header is before it, and what
is behind it. -/
structure Ahead where
  cur : Option Str
  new : Bool
  word : Str
  rest : List Ev
  deriving Repr, DecidableEq

variable (loaded : Modules)

def settle : Bool → Option Str → List Ev → Option Ahead
  | _, _, [] => none
  | skip, cur, .word t :: evs =>
    if skip || !readable loaded cur then settle skip cur evs
    else some { cur, new := false, word := t, rest := evs }
  | _, _, .header m :: evs =>
    (settle false (some m) evs).map fun a => { a with new := true }

variable {loaded} {skip : Bool} {cur : Option Str} {evs : List Ev} {t : Str}

theorem settle_word (h : readable loaded cur = true) :
    settle loaded false cur (.word t :: evs) = some { cur, new := false, word := t, rest := evs } := by
  simp [settle, h]

theorem settle_header (m : Str) : settle loaded skip cur (.header m :: evs) =
    (settle loaded false (some m) evs).map fun a => { a with new := true } := rfl

/-- Words that are not read. -/
theorem settle_words (h : (skip || !readable loaded cur) = true) (ws : List Str) :
    settle loaded skip cur (ws.map .word ++ evs) = settle loaded skip cur evs := by
  induction ws with
  | nil => rfl
  | cons w ws ih =>
    rw [List.map_cons, List.cons_append, settle, if_pos h, ih]

theorem readable_of_settle : ∀ {evs : List Ev} {skip : Bool} {cur : Option Str} {a : Ahead},
    settle loaded skip cur evs = some a → readable loaded a.cur = true
  | [], _, _, _, h => by cases h
  | .word t :: evs, skip, cur, a, h => by
    unfold settle at h
    split at h
    · exact readable_of_settle h
    · rename_i hno
      cases h
      exact (by simpa using hno : skip = false ∧ readable loaded cur = true).2
  | .header m :: evs, skip, cur, a, h => by
    rw [settle_header] at h
    obtain ⟨b, hb, rfl⟩ := Option.map_eq_some_iff.mp h
    have hr : readable loaded b.cur = true := readable_of_settle hb
    exact hr

/-! ## The state -/

/-- What is in front of the reader. -/
def view (fc : FilterConfig) : List Ev :=
  (match fc.savedToken, fc.token with
    | some t, _ => .word t :: (words isBlank fc.strtokPos).map .word
    | none, some _ => (words isBlank fc.strtokPos).map .word
    | none, none => []) ++ fc.file.flatMap lineEvents

/-- The lines to come are good, and the tokens at hand are from a section that can be read. -/
structure Ok (loaded : Modules) (fc : FilterConfig) : Prop where
  lines : ∀ buf ∈ fc.file, GoodLine buf
  token : fc.token.isSome = true → readable loaded fc.curModule = true
  saved : fc.savedToken.isSome = true → fc.token.isSome = true

/-- The reader is in the section `cur` and has `evs` in front of it. -/
structure Sees (loaded : Modules) (fc : FilterConfig) (cur : Option Str) (new : Bool)
    (evs : List Ev) : Prop where
  ok : Ok loaded fc
  cur : fc.curModule = cur
  new : fc.newSection = new
  view : view fc = evs

variable {fc : FilterConfig} {new : Bool}

theorem lineEvents_of_head {buf rest : Str} (h : cleanLine buf = '[' :: rest) :
    lineEvents buf = [.header (rest.takeWhile (· ≠ ']'))] := by
  simp only [lineEvents, h]

theorem lineEvents_of_text {buf : Str} (h : ∀ rest, cleanLine buf ≠ '[' :: rest) :
    lineEvents buf = (words isBlank (cleanLine buf)).map .word := by
  unfold lineEvents
  split
  · rename_i rest hr
    exact absurd hr (h rest)
  · rfl

/-- A line of a section. -/
theorem readLine_text {buf : Str} (h : ∀ rest, cleanLine buf ≠ '[' :: rest) :
    readLine loaded skip fc buf =
      if skip || !readable loaded fc.curModule then (skip, fc)
      else
        match strtok isBlank (cleanLine buf) with
        | some (token, rest) => (skip, { fc with token := some token, strtokPos := rest })
        | none => (skip, fc) := by
  unfold readLine
  split
  · rename_i rest hr
    exact absurd hr (h rest)
  · rfl

/-- The reader has gone to the first word ahead; `new` tells whether it had passed a header before. -/
def ReadsTo (new : Bool) : Option Ahead → FilterConfig → Prop
  | none, fc => fc.token = none ∧ fc.savedToken = none ∧ fc.file = []
  | some a, fc => fc.token = some a.word ∧ fc.savedToken = none ∧ fc.curModule = a.cur ∧
      fc.newSection = (new || a.new) ∧
      (words isBlank fc.strtokPos).map Ev.word ++ fc.file.flatMap lineEvents = a.rest ∧
      ∀ buf ∈ fc.file, GoodLine buf

theorem ReadsTo.header {A : Option Ahead} (h : ReadsTo true A fc) (new : Bool) :
    ReadsTo new (A.map fun a => { a with new := true }) fc := by
  cases A with
  | none => exact h
  | some a =>
    obtain ⟨htok, hsaved, hcur, hnew, hrest, hgood⟩ := h
    exact ⟨htok, hsaved, hcur, by simpa using hnew, hrest, hgood⟩

/-- **Reading lines** goes to the first word that can be read. -/
theorem readLines_spec (file : List Str) (skip : Bool) (fc : FilterConfig)
    (hgood : ∀ buf ∈ file, GoodLine buf) (htok : fc.token = none) (hsaved : fc.savedToken = none) :
    ReadsTo fc.newSection (settle loaded skip fc.curModule (file.flatMap lineEvents))
      (readLines loaded skip file fc) := by
  induction file generalizing skip fc with
  | nil => exact ⟨htok, hsaved, rfl⟩
  | cons buf file ih =>
    obtain ⟨hbuf, hfile⟩ := List.forall_mem_cons.mp hgood
    rw [List.flatMap_cons, readLines]
    by_cases hhead : ∃ rest, cleanLine buf = '[' :: rest
    · obtain ⟨rest, hrest⟩ := hhead
      have hline : readLine loaded skip fc buf =
          (false, { fc with
            curModule := some (rest.takeWhile (· ≠ ']')), newSection := true }) := by
        simp only [readLine, hrest, if_pos (hbuf rest hrest)]
      rw [lineEvents_of_head hrest, List.singleton_append, settle_header, hline]
      dsimp only
      rw [if_neg (by simp [htok])]
      exact (ih false { fc with
        curModule := some (rest.takeWhile (· ≠ ']')), newSection := true } hfile htok hsaved).header _
    · have htext : ∀ rest, cleanLine buf ≠ '[' :: rest := fun rest hr => hhead ⟨rest, hr⟩
      have hwords := words_strtok isBlank (cleanLine buf)
      rw [lineEvents_of_text htext, readLine_text htext]
      by_cases hskip : (skip || !readable loaded fc.curModule) = true
      · rw [if_pos hskip, settle_words hskip]
        dsimp only
        rw [if_neg (by simp [htok])]
        exact ih skip fc hfile htok hsaved
      · rw [if_neg hskip]
        cases hst : strtok isBlank (cleanLine buf) with
        | none =>
          rw [hst] at hwords
          dsimp only at hwords ⊢
          rw [if_neg (by simp [htok]), hwords]
          exact ih skip fc hfile htok hsaved
        | some r =>
          obtain ⟨t, rest⟩ := r
          rw [hst] at hwords
          simp only [hwords, List.map_cons, List.cons_append, settle, if_neg hskip,
            Option.isSome_some, if_true]
          exact ⟨rfl, hsaved, rfl, (Bool.or_false _).symm, rfl, hfile⟩

/-- **The next token** is the first word ahead. -/
theorem nextToken_spec (hok : Ok loaded fc) (skip : Bool) :
    ReadsTo fc.newSection (settle loaded skip fc.curModule (view fc)) (nextToken loaded skip fc) := by
  unfold nextToken
  cases skip with
  | true =>
    have hview : settle loaded true fc.curModule (view fc) =
        settle loaded true fc.curModule (fc.file.flatMap lineEvents) := by
      unfold view
      split
      · rw [← List.map_cons (f := Ev.word)]
        exact settle_words rfl _
      · exact settle_words rfl _
      · rfl
    rw [hview]
    exact readLines_spec fc.file true (tokenAtHand true fc) hok.lines rfl rfl
  | false =>
    cases hs : fc.savedToken with
    | some t =>
      have htok := hok.saved (by rw [hs]; rfl)
      have hhand : tokenAtHand false fc = { fc with token := some t, savedToken := none } := by
        simp [tokenAtHand, hs]
      have hview : view fc = .word t :: ((words isBlank fc.strtokPos).map Ev.word ++
          fc.file.flatMap lineEvents) := by
        simp only [view, hs, List.cons_append]
      rw [hview, settle_word (hok.token htok), hhand]
      exact ⟨rfl, rfl, rfl, (Bool.or_false _).symm, rfl, hok.lines⟩
    | none =>
      cases ht : fc.token with
      | none =>
        have hhand : tokenAtHand false fc = fc := by simp [tokenAtHand, hs, ht]
        have hview : view fc = fc.file.flatMap lineEvents := by simp [view, hs, ht]
        rw [hview, hhand]
        simp only [ht, Option.isSome_none, Bool.false_eq_true, if_false]
        exact readLines_spec fc.file false fc hok.lines ht hs
      | some t =>
        have hread := hok.token (by rw [ht]; rfl)
        have hview : view fc = (words isBlank fc.strtokPos).map Ev.word ++
            fc.file.flatMap lineEvents := by
          simp only [view, hs, ht]
        have hwords := words_strtok isBlank fc.strtokPos
        rw [hview]
        cases hst : strtok isBlank fc.strtokPos with
        | none =>
          have hhand : tokenAtHand false fc = { fc with token := none } := by
            simp [tokenAtHand, hs, ht, hst]
          rw [hst] at hwords
          dsimp only at hwords
          rw [hwords, hhand]
          exact readLines_spec fc.file false { fc with token := none } hok.lines rfl hs
        | some r =>
          obtain ⟨t', rest⟩ := r
          have hhand : tokenAtHand false fc = { fc with token := some t', strtokPos := rest } := by
            simp [tokenAtHand, hs, ht, hst]
          rw [hst] at hwords
          dsimp only at hwords
          rw [hwords, hhand, List.map_cons, List.cons_append, settle_word hread]
          exact ⟨rfl, hs, rfl, (Bool.or_false _).symm, rfl, hok.lines⟩

/-! ## One call -/

variable {a : Ahead} {expected : Option Str} {newCmd : Bool}

/-- The token is put back. -/
theorem ReadsTo.saved (h : ReadsTo new (some a) fc) (hread : readable loaded a.cur = true)
    (n : Bool) : Sees loaded { fc with savedToken := some a.word, newSection := n } a.cur n
      (.word a.word :: a.rest) := by
  obtain ⟨htok, -, hcur, -, hrest, hgood⟩ := h
  refine ⟨⟨hgood, fun _ => ?_, fun _ => ?_⟩, hcur, rfl, ?_⟩
  · exact hcur ▸ hread
  · rw [htok]
    rfl
  · exact congrArg (Ev.word a.word :: ·) hrest

/-- The token is returned. -/
theorem ReadsTo.returned (h : ReadsTo new (some a) fc) (hread : readable loaded a.cur = true) :
    Sees loaded { fc with newSection := false } a.cur false a.rest := by
  obtain ⟨htok, hsaved, hcur, -, hrest, hgood⟩ := h
  refine ⟨⟨hgood, fun _ => ?_, fun hs => ?_⟩, hcur, rfl, ?_⟩
  · exact hcur ▸ hread
  · rw [hsaved] at hs
    cases hs
  · simp only [view, hsaved, htok]
    exact hrest

/-- The end of the file. -/
theorem get_none (h : Sees loaded fc cur new evs) (hset : settle loaded skip cur evs = none) :
    ∃ fc' cur' new', getConfigToken loaded expected skip newCmd fc = ((none, .file), fc') ∧
      Sees loaded fc' cur' new' [] := by
  have hnext := nextToken_spec h.ok skip
  rw [h.cur, h.view, hset] at hnext
  obtain ⟨htok, hsaved, hfile⟩ := hnext
  refine ⟨nextToken loaded skip fc, _, _, ?_, ⟨⟨?_, ?_, ?_⟩, rfl, rfl, ?_⟩⟩
  · simp only [getConfigToken, htok]
  · rw [hfile]
    exact nofun
  · rw [htok]
    exact nofun
  · rw [hsaved]
    exact nofun
  · simp [view, hsaved, htok, hfile]

/-- The word of another section is put back. -/
theorem get_section (h : Sees loaded fc cur new evs) (hset : settle loaded skip cur evs = some a)
    (hnew : (new || a.new) = true) :
    ∃ fc', getConfigToken loaded expected skip false fc = ((none, .section), fc') ∧
      Sees loaded fc' a.cur true (.word a.word :: a.rest) := by
  have hnext := nextToken_spec h.ok skip
  rw [h.cur, h.view, hset] at hnext
  have hn : (nextToken loaded skip fc).newSection = true := hnext.2.2.2.1.trans (h.new ▸ hnew)
  have hs := hnext.saved (readable_of_settle hset) true
  refine ⟨_, ?_, hs⟩
  simp only [getConfigToken, hnext.1, hn]
  rfl

/-- A word of this section, or of the next one when a command begins. -/
theorem get_word (expected : Option Str) (newCmd : Bool) (h : Sees loaded fc cur new evs)
    (hset : settle loaded skip cur evs = some a) (hnew : newCmd = true ∨ (new || a.new) = false) :
    (expected = none ∨ expected = some a.word →
      ∃ fc', getConfigToken loaded expected skip newCmd fc = ((some a.word, .notReached), fc') ∧
        Sees loaded fc' a.cur false a.rest) ∧
    (∀ e, expected = some e → e ≠ a.word →
      ∃ fc', getConfigToken loaded expected skip newCmd fc = ((none, .notReached), fc') ∧
        Sees loaded fc' a.cur false (.word a.word :: a.rest)) := by
  have hnext := nextToken_spec h.ok skip
  rw [h.cur, h.view, hset] at hnext
  have hread := readable_of_settle hset
  have hn : ((nextToken loaded skip fc).newSection && !newCmd) = false := by
    rw [hnext.2.2.2.1, h.new]
    cases hnew with
    | inl hc => simp [hc]
    | inr hc => simp [hc]
  constructor
  · intro he
    refine ⟨_, ?_, hnext.returned hread⟩
    cases he with
    | inl he => simp [getConfigToken, hnext.1, hn, he]
    | inr he => simp [getConfigToken, hnext.1, hn, he]
  · intro e he hne
    refine ⟨_, ?_, hnext.saved hread false⟩
    simp [getConfigToken, hnext.1, hn, he, hne.symm]

/-- Any word of the section. -/
theorem get_any (h : Sees loaded fc cur false (.word t :: evs)) (hr : readable loaded cur = true) :
    ∃ fc', getConfigToken loaded none false false fc = ((some t, .notReached), fc') ∧
      Sees loaded fc' cur false evs :=
  (get_word none false h (settle_word hr) (.inr rfl)).1 (.inl rfl)

/-- The expected word. -/
theorem get_expected (h : Sees loaded fc cur false (.word t :: evs))
    (hr : readable loaded cur = true) :
    ∃ fc', getConfigToken loaded (some t) false false fc = ((some t, .notReached), fc') ∧
      Sees loaded fc' cur false evs :=
  (get_word (some t) false h (settle_word hr) (.inr rfl)).1 (.inr rfl)

/-- Another word than the expected one. -/
theorem get_other {e : Str} (h : Sees loaded fc cur false (.word t :: evs))
    (hr : readable loaded cur = true) (hne : e ≠ t) :
    ∃ fc', getConfigToken loaded (some e) false false fc = ((none, .notReached), fc') ∧
      Sees loaded fc' cur false (.word t :: evs) :=
  (get_word (some e) false h (settle_word hr) (.inr rfl)).2 e rfl hne

/-! ## Looking ahead -/

/-- The reader has looked for the next word: it has it at hand, in its section, or is at the end. -/
def Looked (loaded : Modules) (fc : FilterConfig) (cur : Option Str) (evs : List Ev) : Prop :=
  match settle loaded false cur evs with
  | none => ∃ cur' new', Sees loaded fc cur' new' []
  | some a => Sees loaded fc a.cur a.new (.word a.word :: a.rest)

theorem looked_word (hr : readable loaded cur = true) :
    Looked loaded fc cur (.word t :: evs) ↔ Sees loaded fc cur false (.word t :: evs) := by
  rw [Looked, settle_word hr]

/-- The next word of the section, if there is one, is not `e`. -/
def NextNot (loaded : Modules) (cur : Option Str) (evs : List Ev) (e : Str) : Prop :=
  ∀ a, settle loaded false cur evs = some a → a.new = true ∨ e ≠ a.word

/-- A word that is looked for and not there. -/
theorem get_peek {e : Str} (h : Sees loaded fc cur false evs ∨ Looked loaded fc cur evs)
    (hne : NextNot loaded cur evs e) :
    ∃ fc' n, getConfigToken loaded (some e) false false fc = ((none, n), fc') ∧
      Looked loaded fc' cur evs := by
  unfold Looked at *
  cases hset : settle loaded false cur evs with
  | none =>
    rw [hset] at h
    cases h with
    | inl h =>
      obtain ⟨fc', cur', new', hg, hs⟩ := get_none h hset
      exact ⟨fc', _, hg, cur', new', hs⟩
    | inr h =>
      obtain ⟨_, _, h⟩ := h
      obtain ⟨fc', cur', new', hg, hs⟩ :=
        get_none h rfl
      exact ⟨fc', _, hg, cur', new', hs⟩
  | some a =>
    have hread := readable_of_settle hset
    -- with the word at hand or without, the call finds it
    obtain ⟨cur₀, new₀, evs₀, a₀, hsees, hset₀, hnew, hcur, hword, hrest⟩ :
        ∃ cur₀ new₀ evs₀ a₀, Sees loaded fc cur₀ new₀ evs₀ ∧
          settle loaded false cur₀ evs₀ = some a₀ ∧ (new₀ || a₀.new) = a.new ∧ a₀.cur = a.cur ∧
          a₀.word = a.word ∧ a₀.rest = a.rest := by
      rw [hset] at h
      cases h with
      | inl h => exact ⟨_, _, _, a, h, hset, rfl, rfl, rfl, rfl⟩
      | inr h => exact ⟨_, _, _, _, h, settle_word hread, Bool.or_false _, rfl, rfl, rfl⟩
    cases hn : a.new with
    | true =>
      obtain ⟨fc', hg, hs⟩ := get_section hsees hset₀ (hnew.trans hn)
      rw [hcur, hword, hrest, ← hn] at hs
      exact ⟨fc', _, hg, hs⟩
    | false =>
      have hew : e ≠ a₀.word := by
        cases hne a hset with
        | inl hc =>
          rw [hn] at hc
          cases hc
        | inr hc => exact hword ▸ hc
      obtain ⟨fc', hg, hs⟩ :=
        (get_word (some e) false hsees hset₀ (.inr (hnew.trans hn))).2 e rfl hew
      rw [hcur, hword, hrest, ← hn] at hs
      exact ⟨fc', _, hg, hs⟩

end EraseConfig
