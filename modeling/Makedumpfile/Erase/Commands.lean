import Makedumpfile.Erase.Config

/-!
# Configuration files

The files that the comments of `read_erase_cmd_entry` and `read_iteration_entry` describe: sections of
erase and for commands, whose words stand on the lines in any way. A command says which configuration
it is (`Command.config`); a file should hand over those of the sections that are to be processed
(`Source.configs`).
-/

namespace EraseConfig

open Lib

/-- What follows the symbol of an erase command. -/
inductive ErasePart
  | plain
  | nullify
  | size (s : Str)
  deriving Repr, DecidableEq

structure EraseCmd where
  symbol : Str
  part : ErasePart
  deriving Repr, DecidableEq

/-- What follows the list of a for command. -/
inductive ListPart
  | plain
  | via (member : Str)
  | within (structName member : Str)
  deriving Repr, DecidableEq

inductive Command
  | erase (c : EraseCmd)
  | loop (id list : Str) (part : ListPart) (erases : List EraseCmd)
  deriving Repr, DecidableEq

/-! ## Words -/

def ErasePart.words : ErasePart → List Str
  | .plain => []
  | .nullify => [kwNullify]
  | .size s => [kwSize, s]

def EraseCmd.words (c : EraseCmd) : List Str := kwErase :: c.symbol :: c.part.words

def ListPart.words : ListPart → List Str
  | .plain => []
  | .via member => [kwVia, member]
  | .within structName member => [kwWithin, structName ++ ':' :: member]

def Command.words : Command → List Str
  | .erase c => c.words
  | .loop id list part erases =>
    kwFor :: id :: kwIn :: list :: (part.words ++ erases.flatMap EraseCmd.words ++ [kwEndfor])

/-! ## Well-formed commands -/

/-- The token is a symbol for an entry of the kind. -/
def IsSymbol (kind : Kind) (token : Str) : Prop :=
  isKeyword token = false ∧ (createConfigEntry token kind).isSome = true

/-- The entry of a token. -/
def entryOf (kind : Kind) (token : Str) : List ConfigEntry :=
  (createConfigEntry token kind).getD []

/-- A command about the iteration variable `iter`, if there is one. -/
structure EraseCmd.Ok (iter : Option Str) (c : EraseCmd) : Prop where
  symbol : IsSymbol .filter c.symbol
  ofLoop : iter.isSome = true → entryName (entryOf .filter c.symbol) = iter
  size : ∀ s, c.part = .size s → IsSymbol .size s

def ListPart.Ok : ListPart → Prop
  | .plain => True
  | .via member => (createConfigEntry member .list).isSome = true
  | .within structName member =>
    structName ≠ [] ∧ ':' ∉ structName ∧ member ≠ [] ∧
      isKeyword (structName ++ ':' :: member) = false ∧
      (createConfigEntry member .iteration).isSome = true

def Command.Ok : Command → Prop
  | .erase c => c.Ok none
  | .loop id list part erases =>
    IsSymbol .iteration id ∧ IsSymbol .list list ∧ part.Ok ∧ erases ≠ [] ∧
      ∀ c ∈ erases, c.Ok (entryName (entryOf .iteration id))

/-! ## Configurations -/

/-- The symbol of a command, without the mark of `nullify`. -/
def EraseCmd.plainSymbol (iter : Option Str) (c : EraseCmd) : List ConfigEntry :=
  let ce := (entryOf .filter c.symbol).modifyHead fun p => { p with symbolExpr := some c.symbol }
  if iter.isSome then referTo ce else ce

def EraseCmd.filterSymbol (iter : Option Str) (c : EraseCmd) : List ConfigEntry :=
  match c.part with
  | .nullify => (c.plainSymbol iter).modifyHead fun p => { p with nullify := true }
  | _ => c.plainSymbol iter

def EraseCmd.sizeSymbol (iter : Option Str) (c : EraseCmd) : List ConfigEntry :=
  match c.part with
  | .size s =>
    let ce := entryOf .size s
    if iter.isSome ∧ entryName ce = iter then referTo ce else ce
  | _ => []

def ListPart.listEntry (ce : List ConfigEntry) : ListPart → List ConfigEntry
  | .via member =>
    ce ++ (entryOf .list member).modifyHead fun p =>
      { p with traversalEntry := true, symbolEntry := false }
  | _ => ce

def ListPart.iterEntry (ce : List ConfigEntry) : ListPart → List ConfigEntry
  | .within structName member =>
    (ce.modifyHead fun p => { p with typeName := some structName }) ++
      (entryOf .iteration member).modifyHead fun p => { p with symbolEntry := false }
  | _ => ce

/-- The configuration of a command in the section `moduleName`. -/
def Command.config (moduleName : Option Str) : Command → Config
  | .erase c =>
    { moduleName, filterSymbol := [c.filterSymbol none], sizeSymbol := [c.sizeSymbol none] }
  | .loop id list part erases =>
    let iter := entryName (entryOf .iteration id)
    { moduleName
      iterEntry := part.iterEntry (entryOf .iteration id)
      listEntry := part.listEntry (entryOf .list list)
      filterSymbol := erases.map (EraseCmd.filterSymbol iter)
      sizeSymbol := erases.map (EraseCmd.sizeSymbol iter) }

/-! ## Sections -/

structure Section where
  modName : Str
  cmds : List Command
  deriving Repr, DecidableEq

/-- A file: commands before any section, and sections. -/
structure Source where
  pre : List Command
  sections : List Section
  deriving Repr, DecidableEq

def Source.Ok (src : Source) : Prop :=
  (∀ c ∈ src.pre, c.Ok) ∧ ∀ s ∈ src.sections, ∀ c ∈ s.cmds, c.Ok

variable (loaded debuginfo : Modules)

/-- The section is to be processed. -/
def Section.wanted (s : Section) : Bool :=
  s.modName = vmlinux || (loaded s.modName && debuginfo s.modName)

def Section.configs (s : Section) : List Config := s.cmds.map (Command.config (some s.modName))

/-- What `process_config` should get. -/
def Source.configs (src : Source) : List Config :=
  src.pre.map (Command.config none) ++
    (src.sections.filter (Section.wanted loaded debuginfo)).flatMap Section.configs

/-! ## Layouts -/

/-- A line that fits in `config_buf`. -/
def FitsLine (line : Str) : Prop :=
  '\n' ∉ line ∧ '\x00' ∉ line ∧ line.length + 1 < bufsizeFgets

/-- The words of a line: what is between blanks and tabs, before a comment. -/
def lineWords (line : Str) : List Str :=
  words (fun c => c = ' ' || c = '\t') (line.takeWhile (· ≠ '#'))

/-- The words stand on these lines. -/
def OnLines (ws : List Str) (lines : List Str) : Prop :=
  (∀ line ∈ lines, FitsLine line ∧ line.head? ≠ some '[') ∧ lines.flatMap lineWords = ws

/-- The line is the header of a section. -/
def IsHeader (modName line : Str) : Prop :=
  FitsLine line ∧ (∀ c ∈ modName, c ≠ ']' ∧ c ≠ '#' ∧ c ≠ '\t') ∧
    ∃ rest, line = '[' :: modName ++ ']' :: rest

inductive SectionsOn : List Section → List Str → Prop
  | nil : SectionsOn [] []
  | cons {s : Section} {ss : List Section} {line : Str} {body lines : List Str} :
    IsHeader s.modName line → OnLines (s.cmds.flatMap Command.words) body → SectionsOn ss lines →
    SectionsOn (s :: ss) (line :: (body ++ lines))

/-- The characters of the file: its lines, with or without a newline at the end. -/
def IsFile (lines : List Str) (content : List Char) : Prop :=
  content = lines.flatMap (· ++ ['\n']) ∨ content ++ ['\n'] = lines.flatMap (· ++ ['\n'])

/-- The file is the source in some layout. -/
def Source.LaidOut (src : Source) (content : List Char) : Prop :=
  ∃ pre lines, OnLines (src.pre.flatMap Command.words) pre ∧ SectionsOn src.sections lines ∧
    IsFile (pre ++ lines) content

/-- **The file hands over its commands**, and the loop ends. -/
def HandsOver (src : Source) (content : List Char) : Prop :=
  ∃ n, ∀ rounds ≥ n,
    processFile loaded debuginfo rounds content = some (src.configs loaded debuginfo)

/-! ## What is lost -/

/-- The section has no command that is read. -/
def Section.silent (s : Section) : Bool := !isModuleLoaded loaded s.modName || s.cmds.isEmpty

/-- The section is one erase command, with nothing behind the symbol: its end is found by reading on. -/
def Section.readsOn (s : Section) : Bool :=
  match s.cmds with
  | [.erase c] => c.part = .plain
  | _ => false

/-- No wanted section is skipped. `dropping` tells that the section before was skipped after its command
was read to the first word of the next one. -/
def NoneLost : Bool → List Section → Prop
  | _, [] => True
  | dropping, s :: ss =>
    if s.silent loaded then NoneLost dropping ss
    else if dropping then s.wanted loaded debuginfo = false ∧ NoneLost false ss
    else if s.wanted loaded debuginfo then NoneLost false ss
    else NoneLost s.readsOn ss

end EraseConfig
