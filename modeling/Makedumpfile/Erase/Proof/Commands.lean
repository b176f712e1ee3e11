import Makedumpfile.Erase.Commands
import Makedumpfile.Erase.Proof.Config

/-!
# Reading commands
-/

namespace EraseConfig

open Lib

variable {loaded : Modules} {cur iter : Option Str} {evs : List Ev} {fc : FilterConfig} {t : Str}
  {config : Config} {c : EraseCmd}

/-! ## Entries -/

theorem entryOf_eq {kind : Kind} {token : Str} (h : (createConfigEntry token kind).isSome = true) :
    createConfigEntry token kind = some (entryOf kind token) := by
  obtain ⟨ce, hce⟩ := Option.isSome_iff_exists.mp h
  rw [entryOf, hce]
  rfl

theorem entryName_modifyHead (f : ConfigEntry → ConfigEntry) (hf : ∀ p, (f p).name = p.name)
    (ce : List ConfigEntry) : entryName (ce.modifyHead f) = entryName ce := by
  cases ce with
  | nil => rfl
  | cons p ce => exact hf p

/-- The iteration entry of the configuration is that of the variable `iter`. -/
structure ForLoop (iter : Option Str) (config : Config) : Prop where
  absent : config.iterEntry = [] ↔ iter = none
  name : entryName config.iterEntry = iter

theorem ForLoop.addSymbol (h : ForLoop iter config) (a b : List ConfigEntry) :
    ForLoop iter (config.addSymbol a b) := ⟨h.absent, h.name⟩

theorem filterSymbolOf_eq (h : ForLoop iter config) (hc : c.Ok iter) :
    filterSymbolOf config c.symbol = some (c.plainSymbol iter) := by
  have hname : entryName ((entryOf .filter c.symbol).modifyHead fun p =>
      { p with symbolExpr := some c.symbol }) = entryName (entryOf .filter c.symbol) := by
    rw [entryName_modifyHead]
    exact fun _ => rfl
  simp only [filterSymbolOf, entryOf_eq hc.symbol.2, EraseCmd.plainSymbol]
  cases iter with
  | none => rw [if_pos (h.absent.mpr rfl)]; rfl
  | some n =>
    have hne : config.iterEntry ≠ [] := fun he => by cases h.absent.mp he
    rw [if_neg hne, if_pos (by rw [hname, hc.ofLoop rfl, h.name])]
    rfl

/-! ## An erase command -/

/-- Behind a command: the reader has read just its words, or looked for one more. -/
def After (loaded : Modules) (readsOn : Bool) (fc : FilterConfig) (cur : Option Str)
    (evs : List Ev) : Prop :=
  if readsOn then Looked loaded fc cur evs else Sees loaded fc cur false evs

theorem readSizeEntry_spec {s : Str} (h : ForLoop iter config) (hs : IsSymbol .size s)
    (hpart : c.part = .size s) (hsees : Sees loaded fc cur false (.word s :: evs))
    (hr : readable loaded cur = true) :
    ∃ fc', readSizeEntry loaded config fc = some (c.sizeSymbol iter, fc') ∧
      Sees loaded fc' cur false evs := by
  obtain ⟨fc', hget, hsees'⟩ := get_any hsees hr
  refine ⟨fc', ?_, hsees'⟩
  simp only [readSizeEntry, hget, hs.1, Bool.false_eq_true, if_false, entryOf_eq hs.2,
    EraseCmd.sizeSymbol, hpart, h.name]
  cases iter with
  | none =>
    have he := h.absent.mpr rfl
    simp [he]
  | some n =>
    have hne : config.iterEntry ≠ [] := fun he => by cases h.absent.mp he
    by_cases hn : entryName (entryOf .size s) = some n
    · rw [if_pos ⟨hne, by rw [hn]; rfl, hn⟩, if_pos ⟨rfl, hn⟩]
    · rw [if_neg fun hh => hn hh.2.2, if_neg fun hh => hn hh.2]

/-- **An erase command**, behind its keyword. -/
theorem readEraseCmdEntry_spec (config : Config) (h : ForLoop iter config) (hc : c.Ok iter)
    (hsees : Sees loaded fc cur false (c.words.tail.map .word ++ evs))
    (hr : readable loaded cur = true) (hnull : NextNot loaded cur evs kwNullify)
    (hsize : NextNot loaded cur evs kwSize) :
    ∃ fc', readEraseCmdEntry loaded config fc =
        some (config.addSymbol (c.filterSymbol iter) (c.sizeSymbol iter), fc') ∧
      After loaded (decide (c.part = .plain)) fc' cur evs := by
  obtain ⟨fc₁, hget₁, hsees₁⟩ := get_any hsees hr
  simp only [readEraseCmdEntry, hget₁, hc.symbol.1, Bool.false_eq_true, if_false,
    filterSymbolOf_eq h hc]
  cases hpart : c.part with
  | plain =>
    rw [hpart] at hsees₁
    obtain ⟨fc₂, n₂, hget₂, hlook₂⟩ := get_peek (.inl hsees₁) hnull
    obtain ⟨fc₃, n₃, hget₃, hlook₃⟩ := get_peek (.inr hlook₂) hsize
    simp only [hget₂, hget₃]
    exact ⟨fc₃, by rw [EraseCmd.filterSymbol, EraseCmd.sizeSymbol, hpart], hlook₃⟩
  | nullify =>
    rw [hpart] at hsees₁
    obtain ⟨fc₂, hget₂, hsees₂⟩ := get_expected hsees₁ hr
    simp only [hget₂]
    exact ⟨fc₂, by rw [EraseCmd.filterSymbol, EraseCmd.sizeSymbol, hpart], hsees₂⟩
  | size s =>
    rw [hpart] at hsees₁
    obtain ⟨fc₂, hget₂, hsees₂⟩ := get_other (e := kwNullify) hsees₁ hr (by decide)
    obtain ⟨fc₃, hget₃, hsees₃⟩ := get_expected hsees₂ hr
    obtain ⟨fc₄, hread₄, hsees₄⟩ := readSizeEntry_spec h (hc.size s hpart) hpart hsees₃ hr
    simp only [hget₂, hget₃, hread₄]
    exact ⟨fc₄, by rw [EraseCmd.filterSymbol, hpart]; rfl, hsees₄⟩

/-! ## A for command -/

/-- The next word of the section is another one. -/
theorem nextNot_word {e : Str} (hr : readable loaded cur = true) (hne : e ≠ t) :
    NextNot loaded cur (.word t :: evs) e := by
  intro a ha
  rw [settle_word hr] at ha
  cases ha
  exact .inr hne

theorem takeWhile_colon {structName : Str} (h : ':' ∉ structName) (member : Str) :
    (structName ++ ':' :: member).takeWhile (· ≠ ':') = structName ∧
      (structName ++ ':' :: member).dropWhile (· ≠ ':') = ':' :: member := by
  have hall : ∀ ch ∈ structName, decide (ch ≠ ':') = true := fun ch hch =>
    decide_eq_true fun he => h (he ▸ hch)
  constructor
  · rw [List.takeWhile_append_of_pos hall]
    simp
  · rw [List.dropWhile_append_of_pos hall]
    simp

/-- The list of a loop, and what follows it, up to a word of the section. -/
theorem readListEntry_spec {list : Str} {part : ListPart} (config : Config)
    (hl : IsSymbol .list list) (hp : part.Ok)
    (hsees : Sees loaded fc cur false ((list :: part.words).map .word ++ .word t :: evs))
    (hr : readable loaded cur = true) (hvia : kwVia ≠ t) (hwithin : kwWithin ≠ t) :
    ∃ fc', readListEntry loaded config fc =
        some ({ config with
          listEntry := part.listEntry (entryOf .list list)
          iterEntry := part.iterEntry config.iterEntry }, fc') ∧
      Sees loaded fc' cur false (.word t :: evs) := by
  obtain ⟨fc₁, hget₁, hsees₁⟩ := get_any hsees hr
  simp only [readListEntry, hget₁, hl.1, Bool.false_eq_true, if_false, entryOf_eq hl.2]
  cases part with
  | plain =>
    obtain ⟨fc₂, hget₂, hsees₂⟩ := get_other hsees₁ hr hvia
    obtain ⟨fc₃, hget₃, hsees₃⟩ := get_other hsees₂ hr hwithin
    simp only [hget₂, hget₃]
    exact ⟨fc₃, rfl, hsees₃⟩
  | via member =>
    obtain ⟨fc₂, hget₂, hsees₂⟩ := get_expected hsees₁ hr
    obtain ⟨fc₃, hget₃, hsees₃⟩ := get_any hsees₂ hr
    simp only [hget₂, hget₃, addTraversalEntry, entryOf_eq hp]
    exact ⟨fc₃, rfl, hsees₃⟩
  | within structName member =>
    obtain ⟨hname, hcolon, hmember, hkey, hentry⟩ := hp
    obtain ⟨htake, hdrop⟩ := takeWhile_colon hcolon member
    obtain ⟨fc₂, hget₂, hsees₂⟩ := get_other (e := kwVia) hsees₁ hr (by decide)
    obtain ⟨fc₃, hget₃, hsees₃⟩ := get_expected hsees₂ hr
    obtain ⟨fc₄, hget₄, hsees₄⟩ := get_any hsees₃ hr
    simp only [hget₂, hget₃, hget₄, hkey, readWithin, htake, hdrop, hmember, hname, if_false,
      Bool.false_eq_true, entryOf_eq hentry]
    exact ⟨fc₄, rfl, hsees₄⟩

/-- A configuration with the symbols of more commands. -/
def Config.addErases (config : Config) (iter : Option Str) (erases : List EraseCmd) : Config :=
  { config with
    filterSymbol := config.filterSymbol ++ erases.map (EraseCmd.filterSymbol iter)
    sizeSymbol := config.sizeSymbol ++ erases.map (EraseCmd.sizeSymbol iter) }

/-- **The commands of a loop**, in as many rounds. -/
theorem readLoop_spec {erases : List EraseCmd} {rounds : Nat} (h : ForLoop iter config)
    (hc : ∀ c ∈ erases, c.Ok iter) (hrounds : erases.length < rounds)
    (hsees : Sees loaded fc cur false
      ((erases.flatMap EraseCmd.words).map .word ++ .word kwEndfor :: evs))
    (hr : readable loaded cur = true) :
    ∃ fc', readLoop loaded rounds config fc = some (config.addErases iter erases, fc') ∧
      Sees loaded fc' cur false evs := by
  induction erases generalizing config fc rounds with
  | nil =>
    obtain ⟨rounds, rfl⟩ : ∃ n, rounds = n + 1 := ⟨rounds - 1, by simp at hrounds; omega⟩
    obtain ⟨fc', hget, hsees'⟩ := get_expected hsees hr
    refine ⟨fc', ?_, hsees'⟩
    simp [readLoop, hget, Config.addErases]
  | cons c erases ih =>
    obtain ⟨hc₀, hrest⟩ := List.forall_mem_cons.mp hc
    obtain ⟨rounds, rfl⟩ : ∃ n, rounds = n + 1 := ⟨rounds - 1, by simp at hrounds; omega⟩
    have hwords : (c.words ++ erases.flatMap EraseCmd.words).map Ev.word ++
        .word kwEndfor :: evs = .word kwErase :: (c.words.tail.map Ev.word ++
          ((erases.flatMap EraseCmd.words).map Ev.word ++ .word kwEndfor :: evs)) := by
      rw [List.map_append, List.append_assoc]
      rfl
    rw [List.flatMap_cons, hwords] at hsees
    -- behind the command there is the next one, or `endfor`
    obtain ⟨t, evs', hevs, hnull, hsize⟩ : ∃ t evs',
        (erases.flatMap EraseCmd.words).map Ev.word ++ .word kwEndfor :: evs = .word t :: evs' ∧
          kwNullify ≠ t ∧ kwSize ≠ t := by
      cases erases with
      | nil => exact ⟨kwEndfor, evs, rfl, by decide, by decide⟩
      | cons c' erases => exact ⟨kwErase, _, rfl, by decide, by decide⟩
    obtain ⟨fc₁, hget₁, hsees₁⟩ := get_other (e := kwEndfor) hsees hr (by decide)
    obtain ⟨fc₂, hget₂, hsees₂⟩ := get_expected hsees₁ hr
    obtain ⟨fc₃, hread₃, hafter⟩ := readEraseCmdEntry_spec config h hc₀ hsees₂ hr
      (hevs ▸ nextNot_word hr hnull) (hevs ▸ nextNot_word hr hsize)
    have hsees₃ : Sees loaded fc₃ cur false
        ((erases.flatMap EraseCmd.words).map Ev.word ++ .word kwEndfor :: evs) := by
      rw [hevs] at hafter ⊢
      unfold After at hafter
      split at hafter
      · exact (looked_word hr).mp hafter
      · exact hafter
    obtain ⟨fc₄, hloop, hsees₄⟩ :=
      ih (h.addSymbol (c.filterSymbol iter) (c.sizeSymbol iter)) hrest
        (Nat.lt_of_succ_lt_succ hrounds) hsees₃
    refine ⟨fc₄, ?_, hsees₄⟩
    simp only [readLoop, hget₁, hget₂, hread₃, hloop]
    simp [Config.addErases, Config.addSymbol]

/-! ## A command -/

/-- The last command reads on behind its words. -/
def Command.readsOn : Command → Bool
  | .erase c => c.part = .plain
  | .loop .. => false

/-- The words of a loop behind its keyword. -/
theorem loop_words (id list : Str) (part : ListPart) (erases : List EraseCmd) :
    (Command.loop id list part erases).words.map Ev.word ++ evs =
      .word kwFor :: .word id :: .word kwIn :: ((list :: part.words).map .word ++
        ((erases.flatMap EraseCmd.words).map .word ++ .word kwEndfor :: evs)) := by
  simp [Command.words]

/-- The iteration variable has a name. -/
theorem entryName_iteration {token : Str}
    (h : (createConfigEntry token .iteration).isSome = true) :
    ∃ n, entryName (entryOf .iteration token) = some n := by
  have heq := entryOf_eq h
  unfold createConfigEntry at heq
  cases hw : words (· = '.') token with
  | nil =>
    rw [hw] at heq
    cases heq
  | cons w ws =>
    rw [hw] at heq
    cases hr : createNodes .iteration 1 ws with
    | none => simp [createNodes, createNode, hr] at heq
    | some ptrs =>
      simp only [createNodes, createNode, hr, Nat.lt_irrefl, if_false, gt_iff_lt,
        Option.some.injEq] at heq
      exact ⟨w, by rw [← heq]; rfl⟩

theorem forLoop_iterEntry {part : ListPart} {ce : List ConfigEntry} {n : Str}
    (h : entryName ce = some n) (hc : config.iterEntry = part.iterEntry ce) :
    ForLoop (some n) config := by
  cases ce with
  | nil => cases h
  | cons p ce =>
    cases part with
    | plain => exact ⟨by simp [hc, ListPart.iterEntry], hc ▸ h⟩
    | via member => exact ⟨by simp [hc, ListPart.iterEntry], hc ▸ h⟩
    | within structName member => exact ⟨by simp [hc, ListPart.iterEntry], hc ▸ h⟩

/-- **A for command**, behind its keyword. -/
theorem readIterationEntry_spec {m : Option Str} {id list : Str} {part : ListPart}
    {erases : List EraseCmd} {rounds : Nat} (hok : (Command.loop id list part erases).Ok)
    (hrounds : erases.length < rounds)
    (hsees : Sees loaded fc cur false (.word id :: .word kwIn ::
      ((list :: part.words).map .word ++
        ((erases.flatMap EraseCmd.words).map .word ++ .word kwEndfor :: evs))))
    (hr : readable loaded cur = true) :
    ∃ fc', readIterationEntry loaded rounds { moduleName := m } fc =
        some ((Command.loop id list part erases).config m, fc') ∧
      Sees loaded fc' cur false evs := by
  obtain ⟨hid, hlist, hpart, hne, herases⟩ := hok
  obtain ⟨fc₁, hget₁, hsees₁⟩ := get_any hsees hr
  obtain ⟨fc₂, hget₂, hsees₂⟩ := get_expected hsees₁ hr
  obtain ⟨c, erases', rfl⟩ := List.exists_cons_of_ne_nil hne
  obtain ⟨fc₃, hread₃, hsees₃⟩ :=
    readListEntry_spec { moduleName := m, iterEntry := entryOf .iteration id } hlist hpart hsees₂ hr
      (by decide) (by decide)
  obtain ⟨n, hn⟩ := entryName_iteration hid.2
  have hfor : ForLoop (entryName (entryOf .iteration id))
      { moduleName := m, listEntry := part.listEntry (entryOf .list list)
        iterEntry := part.iterEntry (entryOf .iteration id) } :=
    hn ▸ forLoop_iterEntry hn rfl
  obtain ⟨fc₄, hread₄, hsees₄⟩ := readLoop_spec hfor herases hrounds hsees₃ hr
  refine ⟨fc₄, ?_, hsees₄⟩
  simp only [readIterationEntry, hget₁, hid.1, Bool.false_eq_true, if_false, entryOf_eq hid.2, hget₂,
    hread₃, hread₄]
  rfl

/-- The next `get_config` begins in this section with this word, if there is one. -/
def Ready (loaded : Modules) (skip : Bool) (fc : FilterConfig)
    (next : Option (Option Str × Str × List Ev)) : Prop :=
  ∃ cur new evs, Sees loaded fc cur new evs ∧
    (settle loaded skip cur evs).map (fun a => (a.cur, a.word, a.rest)) = next

/-- **The next command** of a section. -/
theorem getConfig_spec {skip : Bool} {m : Option Str} {cmd : Command} {rounds : Nat}
    (hok : cmd.Ok) (hrounds : ∀ id list part erases, cmd = .loop id list part erases →
      erases.length < rounds)
    (hready : Ready loaded skip fc
      (some (m, cmd.words.headD [], cmd.words.tail.map .word ++ evs)))
    (hr : readable loaded m = true) (hnull : NextNot loaded m evs kwNullify)
    (hsize : NextNot loaded m evs kwSize) :
    ∃ fc', getConfig loaded rounds skip fc = some (cmd.config m, fc') ∧
      After loaded cmd.readsOn fc' m evs := by
  obtain ⟨cur, new, evs', hsees, hset⟩ := hready
  obtain ⟨a, hset, ha⟩ := Option.map_eq_some_iff.mp hset
  obtain ⟨hcur, hword, hrest⟩ : a.cur = m ∧ a.word = cmd.words.headD [] ∧
      a.rest = cmd.words.tail.map .word ++ evs := by simpa using ha
  have hget := get_word (some kwErase) true hsees hset (.inl rfl)
  rw [hcur, hword, hrest] at hget
  cases cmd with
  | erase c =>
    obtain ⟨fc₁, hget₁, hsees₁⟩ := hget.1 (.inr rfl)
    have hfor : ForLoop none ({ moduleName := m } : Config) := ⟨by simp, rfl⟩
    obtain ⟨fc₂, hread₂, hafter⟩ := readEraseCmdEntry_spec _ hfor hok hsees₁ hr hnull hsize
    refine ⟨fc₂, ?_, hafter⟩
    have hcur₁ : fc₁.curModule = m := hsees₁.cur
    simp only [getConfig, hget₁, hcur₁, hread₂]
    rfl
  | loop id list part erases =>
    have hne : kwErase ≠ kwFor := by decide
    obtain ⟨fc₁, hget₁, hsees₁⟩ := hget.2 kwErase rfl hne
    rw [show (Command.loop id list part erases).words.tail.map Ev.word ++ evs = _ from
      congrArg List.tail (loop_words id list part erases)] at hsees₁
    obtain ⟨fc₂, hget₂, hsees₂⟩ := get_expected hsees₁ hr
    obtain ⟨fc₃, hread₃, hsees₃⟩ := readIterationEntry_spec (m := m) hok
      (hrounds id list part erases rfl) hsees₂ hr
    refine ⟨fc₃, ?_, hsees₃⟩
    have hcur₂ : fc₂.curModule = m := hsees₂.cur
    simp only [getConfig, hget₁]
    rw [show (Command.loop id list part erases).words.headD [] = kwFor from rfl] at hget₂
    simp only [hget₂, hcur₂, hread₃]

/-- No further command. -/
theorem getConfig_end {skip : Bool} {rounds : Nat} (hready : Ready loaded skip fc none) :
    getConfig loaded rounds skip fc = none := by
  obtain ⟨cur, new, evs', hsees, hset⟩ := hready
  rw [Option.map_eq_none_iff] at hset
  obtain ⟨fc₁, cur₁, new₁, hget₁, hsees₁⟩ : ∃ fc₁ cur₁ new₁,
      getConfigToken loaded (some kwErase) skip true fc = ((none, .file), fc₁) ∧
        Sees loaded fc₁ cur₁ new₁ [] := get_none hsees hset
  obtain ⟨fc₂, cur₂, new₂, hget₂, -⟩ : ∃ fc₂ cur₂ new₂,
      getConfigToken loaded (some kwFor) false false fc₁ = ((none, .file), fc₂) ∧
        Sees loaded fc₂ cur₂ new₂ [] := get_none hsees₁ rfl
  simp only [getConfig, hget₁, hget₂]

end EraseConfig
