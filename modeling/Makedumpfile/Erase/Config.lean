import Makedumpfile.Lib.Words

/-!
# The configuration of erased data

`get_config_token` reads the words of the configuration file, `get_config` a command from them, and
`process_config_file` hands the commands to `process_config`, section by section. Whether a word that
may follow a command is there is found out by reading on, and a word that is not the expected one is
kept in `saved_token`. Which modules are loaded and which have debug information is decided by their
names here. The texts of errors and the line numbers in them are left out: an error ends the reading.
-/

namespace EraseConfig

open Lib

abbrev Str := List Char

def kwErase : Str := ['e', 'r', 'a', 's', 'e']
def kwSize : Str := ['s', 'i', 'z', 'e']
def kwNullify : Str := ['n', 'u', 'l', 'l', 'i', 'f', 'y']
def kwFor : Str := ['f', 'o', 'r']
def kwIn : Str := ['i', 'n']
def kwVia : Str := ['v', 'i', 'a']
def kwWithin : Str := ['w', 'i', 't', 'h', 'i', 'n']
def kwEndfor : Str := ['e', 'n', 'd', 'f', 'o', 'r']
def vmlinux : Str := ['v', 'm', 'l', 'i', 'n', 'u', 'x']

/-- `IS_KEYWORD` -/
def isKeyword (tkn : Str) : Bool :=
  tkn = kwErase || tkn = kwSize || tkn = kwNullify || tkn = kwFor || tkn = kwIn || tkn = kwWithin ||
    tkn = kwEndfor

/-! ## Lines -/

def bufsizeFgets : Nat := 1500

/-- What the calls of `fgets` return: lines with their newline, at most `n - 1` characters each. -/
def fgetsAll (n : Nat) : List Char → List Char → List Str
  | [], acc => if acc = [] then [] else [acc.reverse]
  | c :: cs, acc =>
    if c = '\n' ∨ acc.length + 2 = n then (c :: acc).reverse :: fgetsAll n cs []
    else fgetsAll n cs (c :: acc)

/-- The line as a C string, without the newline and the comment, with blanks for tabs. -/
def cleanLine (buf : Str) : Str :=
  (((buf.takeWhile (· ≠ '\x00')).takeWhile (· ≠ '\n')).takeWhile (· ≠ '#')).map fun c =>
    if c = '\t' then ' ' else c

def isBlank (c : Char) : Bool := c = ' '

/-- `struct filter_config`, with what is left of the file and the place where `strtok` goes on. -/
structure FilterConfig where
  file : List Str
  strtokPos : Str := []
  curModule : Option Str := none
  savedToken : Option Str := none
  token : Option Str := none
  newSection : Bool := false
  deriving Repr, DecidableEq

/-- `*eof` -/
inductive End
  | notReached
  | file
  | section
  deriving Repr, DecidableEq

/-- `get_loaded_module` by the name. -/
abbrev Modules := Str → Bool

def isModuleLoaded (loaded : Modules) (modName : Str) : Bool := modName = vmlinux || loaded modName

/-- `cur_module` is not set, or loaded. -/
def readable (loaded : Modules) (curModule : Option Str) : Bool :=
  match curModule with
  | some modName => isModuleLoaded loaded modName
  | none => true

variable (loaded : Modules)

/-- A line; the first component is the skip flag. -/
def readLine (skip : Bool) (fc : FilterConfig) (buf : Str) : Bool × FilterConfig :=
  match cleanLine buf with
  | '[' :: rest =>
    if ']' ∈ rest then
      (false, { fc with curModule := some (rest.takeWhile (· ≠ ']')), newSection := true })
    else (true, fc)
  | line =>
    if skip || !readable loaded fc.curModule then (skip, fc)
    else
      match strtok isBlank line with
      | some (token, rest) => (skip, { fc with token := some token, strtokPos := rest })
      | none => (skip, fc)

/-- Lines are read until there is a token. -/
def readLines : Bool → List Str → FilterConfig → FilterConfig
  | _, [], fc => { fc with file := [] }
  | skip, buf :: file, fc =>
    let r := readLine loaded skip fc buf
    if r.2.token.isSome then { r.2 with file } else readLines r.1 file r.2

/-- The token that is at hand: the saved one or the next one of the line. -/
def tokenAtHand (skip : Bool) (fc : FilterConfig) : FilterConfig :=
  if skip then { fc with token := none, savedToken := none }
  else
    match fc.savedToken, fc.token with
    | some token, _ => { fc with token := some token, savedToken := none }
    | none, some _ =>
      match strtok isBlank fc.strtokPos with
      | some (token, rest) => { fc with token := some token, strtokPos := rest }
      | none => { fc with token := none }
    | none, none => fc

/-- Go to the next token, if there is one. -/
def nextToken (skip : Bool) (fc : FilterConfig) : FilterConfig :=
  let fc := tokenAtHand skip fc
  if fc.token.isSome then fc else readLines loaded skip fc.file fc

def getConfigToken (expected : Option Str) (skip newCmd : Bool) (fc : FilterConfig) :
    (Option Str × End) × FilterConfig :=
  let fc := nextToken loaded skip fc
  match fc.token with
  | none => ((none, .file), fc)
  | some token =>
    if fc.newSection && !newCmd then ((none, .section), { fc with savedToken := some token })
    else
      let fc := { fc with newSection := false }
      match expected with
      | some e =>
        if token ≠ e then ((none, .notReached), { fc with savedToken := some token })
        else ((some token, .notReached), fc)
      | none => ((some token, .notReached), fc)

/-! ## Entries -/

inductive Kind
  | filter
  | size
  | iteration
  | list
  deriving Repr, DecidableEq

/-- `struct config_entry`, as far as it is set while reading; an entry with its members is a list.
`symbolEntry`, `varEntry`, `traversalEntry` and `resolved` are flags, `referTo` says that `refer_to` is
the iteration entry. -/
structure ConfigEntry where
  kind : Kind
  name : Option Str := none
  typeName : Option Str := none
  symbolExpr : Option Str := none
  symbolEntry : Bool := false
  varEntry : Bool := false
  traversalEntry : Bool := false
  resolved : Bool := false
  referTo : Bool := false
  nullify : Bool := false
  size : Nat := 0
  deriving Repr, DecidableEq

def isDigit (c : Char) : Bool := '0' ≤ c && c ≤ '9'

def digitsVal (s : Str) : Nat := s.foldl (fun n c => 10 * n + (c.toNat - '0'.toNat)) 0

/-- `sscanf(s, "%ld%c", …)`: the sign, the digits' value and the next character. -/
def scanSize (s : Str) : Option (Bool × Nat × Option Char) :=
  let (neg, s) := match s with
    | '-' :: s => (true, s)
    | '+' :: s => (false, s)
    | s => (false, s)
  let digits := s.takeWhile isDigit
  if digits = [] then none else some (neg, digitsVal digits, (s.dropWhile isDigit).head?)

/-- The number of bytes for a size with its suffix. -/
def sizeWithSuffix (len : Nat) (ch : Option Char) : Nat :=
  if ch = some 'M' ∨ ch = some 'm' then len * 1024 * 1024
  else if ch = some 'K' ∨ ch = some 'k' then len * 1024
  else len

/-- A node of an entry. -/
def createNode (kind : Kind) (depth : Nat) (cur : Str) : Option ConfigEntry :=
  let ptr : ConfigEntry := { kind, symbolEntry := depth = 0 }
  match kind with
  | .iteration => if depth > 0 then none else some { ptr with name := some cur }
  | .filter => some { ptr with name := some cur }
  | .list => some { ptr with name := some cur }
  | .size =>
    match if depth = 0 then scanSize cur else none with
    | some (neg, len, ch) =>
      -- a length below 0
      if neg && len ≠ 0 then none
      else some { ptr with size := sizeWithSuffix len ch, resolved := true }
    | none => some { ptr with name := some cur }

def createNodes (kind : Kind) : Nat → List Str → Option (List ConfigEntry)
  | _, [] => some []
  | depth, cur :: rest =>
    match createNode kind depth cur, createNodes kind (depth + 1) rest with
    | some ptr, some ptrs => some (ptr :: ptrs)
    | _, _ => none

/-- `create_config_entry`; the parts between dots that are empty are skipped. -/
def createConfigEntry (token : Str) (kind : Kind) : Option (List ConfigEntry) :=
  match createNodes kind 0 (words (· = '.') token) with
  | some [] => none
  | r => r

def entryName (ce : List ConfigEntry) : Option Str := ce.head?.bind (·.name)

/-- The entry stands for the iteration variable. -/
def referTo (ce : List ConfigEntry) : List ConfigEntry :=
  ce.modifyHead fun p => { p with symbolEntry := false, varEntry := true, referTo := true }

/-- `struct config`; an entry that is not there is the empty list. -/
structure Config where
  moduleName : Option Str := none
  iterEntry : List ConfigEntry := []
  listEntry : List ConfigEntry := []
  filterSymbol : List (List ConfigEntry) := []
  sizeSymbol : List (List ConfigEntry) := []
  deriving Repr, DecidableEq

/-! ## Commands -/

/-- `read_size_entry` -/
def readSizeEntry (config : Config) (fc : FilterConfig) :
    Option (List ConfigEntry × FilterConfig) :=
  match getConfigToken loaded none false false fc with
  | ((none, _), _) => none
  | ((some token, _), fc) =>
    if isKeyword token then none
    else
      match createConfigEntry token .size with
      | none => none
      | some ce =>
        if config.iterEntry ≠ [] ∧ (entryName ce).isSome ∧
            entryName ce = entryName config.iterEntry then some (referTo ce, fc)
        else some (ce, fc)

/-- A filter symbol with its size symbol, which may be absent. -/
def Config.addSymbol (config : Config) (filterSymbol sizeSymbol : List ConfigEntry) : Config :=
  { config with
    filterSymbol := config.filterSymbol ++ [filterSymbol]
    sizeSymbol := config.sizeSymbol ++ [sizeSymbol] }

/-- The filter symbol of a command; in a loop it has to be about the iteration variable. -/
def filterSymbolOf (config : Config) (token : Str) : Option (List ConfigEntry) :=
  match createConfigEntry token .filter with
  | none => none
  | some ce =>
    let ce := ce.modifyHead fun p => { p with symbolExpr := some token }
    if config.iterEntry = [] then some ce
    else if entryName ce = entryName config.iterEntry then some (referTo ce)
    else none

/-- `read_erase_cmd_entry` -/
def readEraseCmdEntry (config : Config) (fc : FilterConfig) : Option (Config × FilterConfig) :=
  match getConfigToken loaded none false false fc with
  | ((none, _), _) => none
  | ((some token, _), fc) =>
    if isKeyword token then none
    else
      match filterSymbolOf config token with
      | none => none
      | some ce =>
        match getConfigToken loaded (some kwNullify) false false fc with
        | ((some _, _), fc) =>
          some (config.addSymbol (ce.modifyHead fun p => { p with nullify := true }) [], fc)
        | ((none, _), fc) =>
          match getConfigToken loaded (some kwSize) false false fc with
          | ((some _, _), fc) =>
            (readSizeEntry loaded config fc).map fun r => (config.addSymbol ce r.1, r.2)
          | ((none, _), fc) => some (config.addSymbol ce [], fc)

/-- The member of `via`, as the last node of the list entry. -/
def addTraversalEntry (ce : List ConfigEntry) (member : Str) : Option (List ConfigEntry) :=
  (createConfigEntry member .list).map fun next =>
    ce ++ next.modifyHead fun p => { p with traversalEntry := true, symbolEntry := false }

/-- The token of `within`, `StructName:ListHeadMember`. -/
def readWithin (config : Config) (token : Str) : Option Config :=
  let sName := token.takeWhile (· ≠ ':')
  match token.dropWhile (· ≠ ':') with
  | [] =>
    if sName = [] then none
    else some { config with
      iterEntry := config.iterEntry.modifyHead fun p => { p with typeName := some sName } }
  | _ :: lhMember =>
    if lhMember = [] then none
    else
      match createConfigEntry lhMember .iteration with
      | none => none
      | some next =>
        if sName = [] then none
        else some { config with
          iterEntry := (config.iterEntry.modifyHead fun p => { p with typeName := some sName }) ++
            next.modifyHead fun p => { p with symbolEntry := false } }

/-- `read_list_entry` -/
def readListEntry (config : Config) (fc : FilterConfig) : Option (Config × FilterConfig) :=
  match getConfigToken loaded none false false fc with
  | ((none, _), _) => none
  | ((some token, _), fc) =>
    if isKeyword token then none
    else
      match createConfigEntry token .list with
      | none => none
      | some ce =>
        let config := { config with listEntry := ce }
        match getConfigToken loaded (some kwVia) false false fc with
        | ((some _, _), fc) =>
          match getConfigToken loaded none false false fc with
          | ((none, _), _) => none
          | ((some token, _), fc) =>
            (addTraversalEntry ce token).map fun ce => ({ config with listEntry := ce }, fc)
        | ((none, _), fc) =>
          match getConfigToken loaded (some kwWithin) false false fc with
          | ((some _, _), fc) =>
            match getConfigToken loaded none false false fc with
            | ((none, _), _) => none
            | ((some token, _), fc) =>
              if isKeyword token then none
              else (readWithin config token).map fun config => (config, fc)
          | ((none, _), fc) => some (config, fc)

/-- The commands of a loop, up to `endfor`, with at most `rounds` rounds. -/
def readLoop : Nat → Config → FilterConfig → Option (Config × FilterConfig)
  | 0, _, _ => none
  | rounds + 1, config, fc =>
    match getConfigToken loaded (some kwEndfor) false false fc with
    | ((some _, _), fc) => some (config, fc)
    | ((none, .notReached), fc) =>
      match getConfigToken loaded (some kwErase) false false fc with
      | ((none, _), _) => none
      | ((some _, _), fc) =>
        match readEraseCmdEntry loaded config fc with
        | none => none
        | some (config, fc) => readLoop rounds config fc
    | ((none, _), _) => none

/-- `read_iteration_entry` -/
def readIterationEntry (rounds : Nat) (config : Config) (fc : FilterConfig) :
    Option (Config × FilterConfig) :=
  match getConfigToken loaded none false false fc with
  | ((none, _), _) => none
  | ((some token, _), fc) =>
    if isKeyword token then none
    else
      match createConfigEntry token .iteration with
      | none => none
      | some ce =>
        match getConfigToken loaded (some kwIn) false false fc with
        | ((none, _), _) => none
        | ((some _, _), fc) =>
          match readListEntry loaded { config with iterEntry := ce } fc with
          | none => none
          | some (config, fc) => readLoop loaded rounds config fc

/-- `get_config`; `none` when there is no further command. -/
def getConfig (rounds : Nat) (skip : Bool) (fc : FilterConfig) : Option (Config × FilterConfig) :=
  match getConfigToken loaded (some kwErase) skip true fc with
  | ((some _, _), fc) => readEraseCmdEntry loaded { moduleName := fc.curModule } fc
  | ((none, _), fc) =>
    match getConfigToken loaded (some kwFor) false false fc with
    | ((some _, _), fc) => readIterationEntry loaded rounds { moduleName := fc.curModule } fc
    | ((none, _), _) => none

/-- The module of a command has its debug information; `debuginfo` is `set_dwarf_debuginfo`. -/
def hasDebuginfo (debuginfo : Modules) (moduleName : Option Str) : Bool :=
  match moduleName with
  | some name => name = vmlinux || debuginfo name
  | none => true

/-- `process_config_file`: the configurations that `process_config` gets, in order. `none` when
`rounds` rounds are not enough. -/
def processConfigFile (debuginfo : Modules) : Nat → Bool → FilterConfig → Option (List Config)
  | 0, _, _ => none
  | rounds + 1, skipSection, fc =>
    match getConfig loaded rounds skipSection fc with
    | none => some []
    | some (config, fc) =>
      if hasDebuginfo debuginfo config.moduleName then
        (processConfigFile debuginfo rounds false fc).map (config :: ·)
      else processConfigFile debuginfo rounds true fc

/-- The run for a file. -/
def processFile (debuginfo : Modules) (rounds : Nat) (content : List Char) : Option (List Config) :=
  processConfigFile loaded debuginfo rounds false { file := fgetsAll bufsizeFgets content [] }

end EraseConfig
