import Treewalk.Settings.Document

/-!
# Command lines

A command line names one of five commands, four of which take a file. The option
`--config` may stand before or after the command, the other options only after theirs.
An option takes the next word as its value, unless that word looks like an option
itself, or what follows an equals sign. After `--` every word is taken as it is. The
words are read from left to right and the first fault ends the reading, so that a
request for help counts only where nothing before it is wrong.
-/

namespace Treewalk

/-- What a command line asks for. -/
inductive Command where
  | run (file : String) (breakPolicy : Option BreakPolicy)
      (faultPolicy : Option FaultPolicy)
  | check (file : String)
  | parse (file : String)
  | tokens (file : String)
  | prompt
deriving DecidableEq

/-- A command with the file of settings that is asked for. -/
structure Invocation where
  config : Option String
  command : Command
deriving DecidableEq

/-- Why a command line gives no command. -/
inductive Refusal where
  /-- It asks for help. -/
  | help
  /-- It asks for the version. -/
  | version
  /-- It is not well formed. -/
  | misuse
deriving DecidableEq

namespace Command

/-- The file that a command is about. -/
def file? : Command → Option String
  | run file _ _ => some file
  | check file => some file
  | parse file => some file
  | tokens file => some file
  | prompt => none

end Command

namespace Arguments

/-! ## Words -/

/-- A word of a command line by its looks. -/
inductive Word where
  /-- The two hyphens after which every word is plain. -/
  | escape
  /-- An option with a long name, and the value after its equals sign. -/
  | long (name : String) (value : Option String)
  /-- An option of one letter. -/
  | short (letter : Char)
  | plain (text : String)

/-- The looks of a word. -/
def Word.ofString (text : String) : Word :=
  match text.toList with
  | ['-', '-'] => .escape
  | '-' :: '-' :: rest =>
    let name := rest.takeWhile (· ≠ '=')
    match rest.dropWhile (· ≠ '=') with
    | [] => .long (String.ofList name) none
    | _ :: value => .long (String.ofList name) (some (String.ofList value))
  | '-' :: letter :: _ => .short letter
  | _ => .plain text

/-- Whether a word can be the value of the option before it. -/
def Word.isPlain : Word → Bool
  | plain _ => true
  | _ => false

/-! ## Options -/

/-- The options that take a value. -/
inductive Flag where
  | config | breakPolicy | faultPolicy
deriving DecidableEq

/-- The long name of an option. -/
def Flag.name : Flag → String
  | config => "config"
  | breakPolicy => "break-policy"
  | faultPolicy => "native-faults"

/-- What was read so far. -/
structure Collected where
  config : Option String
  breakPolicy : Option BreakPolicy
  faultPolicy : Option FaultPolicy
  files : List String

namespace Collected

/-- Nothing read yet. -/
def empty : Collected :=
  ⟨none, none, none, []⟩

/-- Takes the value of an option, which may be given once. -/
def set (collected : Collected) (flag : Flag) (value : String) : Option Collected :=
  match flag with
  | .config =>
    if collected.config.isNone && value ≠ "" then
      some { collected with config := some value }
    else
      none
  | .breakPolicy =>
    match BreakPolicy.ofName? value with
    | some policy =>
      if collected.breakPolicy.isNone then
        some { collected with breakPolicy := some policy }
      else
        none
    | none => none
  | .faultPolicy =>
    match FaultPolicy.ofName? value with
    | some policy =>
      if collected.faultPolicy.isNone then
        some { collected with faultPolicy := some policy }
      else
        none
    | none => none

/-- Takes a file, of which there may be so many. -/
def addFile (limit : Nat) (collected : Collected) (file : String) : Option Collected :=
  if collected.files.length < limit && file ≠ "" then
    some { collected with files := collected.files ++ [file] }
  else none

end Collected

/-- What may stand at a level of a command line. -/
structure Level where
  flags : List Flag
  files : Nat
  /-- Whether a plain word is the name of a command and the version can be asked for. -/
  outer : Bool

namespace Level

/-- The level before the command. -/
def before : Level :=
  ⟨[.config], 0, true⟩

/-- The level after the name of a command. -/
def after? : String → Option Level
  | "run" => some ⟨[.config, .breakPolicy, .faultPolicy], 1, false⟩
  | "check" => some ⟨[.config], 1, false⟩
  | "parse" => some ⟨[.config], 1, false⟩
  | "tokens" => some ⟨[.config], 1, false⟩
  | "repl" => some ⟨[.config], 0, false⟩
  | _ => none

/-- The option of that long name. -/
def flag? (level : Level) (name : String) : Option Flag :=
  level.flags.find? fun flag => flag.name == name

end Level

/-- A value, or a command line that is not well formed. -/
def orMisuse {α : Type} : Option α → Except Refusal α
  | some value => .ok value
  | none => .error .misuse

/-- Reads the words of a level; before the command it stops at the command's name. -/
def scan (level : Level) (collected : Collected) :
    List String → Except Refusal (Collected × List String)
  | [] => .ok (collected, [])
  | word :: rest =>
    match Word.ofString word with
    | .escape => do
      if level.outer then .error .misuse
      else return (← orMisuse (rest.foldlM (Collected.addFile level.files) collected),
        [])
    | .short letter =>
      if letter = 'h' then .error .help
      else if letter = 'V' && level.outer then .error .version
      else .error .misuse
    | .long name value =>
      match level.flag? name, value, rest with
      | some flag, some value, rest =>
        match collected.set flag value with
        | some collected => scan level collected rest
        | none => .error .misuse
      | some flag, none, value :: rest =>
        if (Word.ofString value).isPlain then
          match collected.set flag value with
          | some collected => scan level collected rest
          | none => .error .misuse
        else .error .misuse
      | none, none, _ =>
        if name = "help" then .error .help
        else if name = "version" && level.outer then .error .version
        else .error .misuse
      | _, _, _ => .error .misuse
    | .plain text =>
      if level.outer then .ok (collected, word :: rest)
      else
        match collected.addFile level.files text with
        | some collected => scan level collected rest
        | none => .error .misuse

/-- The command of a name with what was read for it. -/
def command? (name : String) (collected : Collected) : Option Command :=
  match name, collected.files with
  | "run", [file] => some (.run file collected.breakPolicy collected.faultPolicy)
  | "check", [file] => some (.check file)
  | "parse", [file] => some (.parse file)
  | "tokens", [file] => some (.tokens file)
  | "repl", [] => some .prompt
  | _, _ => none

/-- Whether the words after `help` name a command or nothing. -/
def isHelpTopic : List String → Bool
  | [] => true
  | [name] => name = "help" || (Level.after? name).isSome
  | _ => false

/-- Reads a command line. The settings named after the command win over those named
before it. -/
def read (args : List String) : Except Refusal Invocation := do
  let (outer, rest) ← scan .before .empty args
  match rest with
  | [] => .error .misuse
  | "help" :: topic => .error (if isHelpTopic topic then .help else .misuse)
  | name :: rest =>
    let level ← orMisuse (Level.after? name)
    let (collected, _) ← scan level .empty rest
    let command ← orMisuse (command? name collected)
    return ⟨collected.config.or outer.config, command⟩

end Arguments

end Treewalk
