import Treewalk.Command.Arguments
import Treewalk.Command.Prompt
import Treewalk.Tree.Json

/-!
# Commands

What each command does, and the status that it ends with: 0 if all went well, 1 after an
error, 2 for a command line that is not well formed. Settings are read before anything
else, also by the commands that use none of them.
-/

namespace Treewalk

/-- The version of the program. -/
def version : String :=
  "0.1.0"

namespace Command

/-- How to call the program. -/
def usage : String :=
  "Quill - a small scripting language\n\n" ++
  "Usage: quill [OPTIONS] <COMMAND>\n\n" ++
  "Commands:\n" ++
  "  run     Run a Quill script\n" ++
  "  check   Lex, parse and resolve a source file without running it\n" ++
  "  parse   Parse and dump AST (debug)\n" ++
  "  tokens  Tokenize and dump tokens (debug)\n" ++
  "  repl    Start an interactive session\n" ++
  "  help    Print this message or the help of the given subcommand(s)\n\n" ++
  "Options:\n" ++
  "      --config <CONFIG>  Configuration file (default: quill.toml beside the " ++
  "script, then in the working directory)\n" ++
  "  -h, --help             Print help\n" ++
  "  -V, --version          Print version\n"

/-- The settings of a command, whose own options win over the file's. -/
def adjust (settings : Settings) : Command → Settings
  | run _ breakPolicy faultPolicy =>
    { settings with
      run := { settings.run with
        breakPolicy := breakPolicy.getD settings.run.breakPolicy
        faultPolicy := faultPolicy.getD settings.run.faultPolicy } }
  | _ => settings

/-- The tokens of a text, one on each line. -/
def tokenLines (tokens : List (Located Token)) : String :=
  String.join
    (tokens.map fun token => token.node.shown ++ " @ " ++ token.span.text ++ "\n")

section

variable {m : Type → Type} [Monad m]

/-- Ends with an error that concerns no place in a source text. -/
def failPlain (system : System m) (e : Error) : m UInt32 := do
  system.complain ("Error: " ++ e.text system.visit ++ "\n")
  return 1

/-- Ends with an error in a source text. -/
def failIn (system : System m) (file : String) (e : Error) : m UInt32 := do
  system.complain (file ++ ": " ++ e.text system.visit ++ "\n")
  return 1

/-- Reads the source text of a command. -/
def source (system : System m) (file : String) : m (Except Error String) := do
  match ← system.text file with
  | .ok text => return .ok text
  | .error reason => return .error (.io (file ++ ": " ++ reason))

/-- Runs a script. -/
def runScript (system : System m) (rounds : Nat) (settings : Settings) (file : String) :
    m UInt32 := do
  match ← source system file with
  | .error e => failPlain system e
  | .ok text =>
    match Session.ofSettings settings with
    | .error e => failPlain system e
    | .ok session =>
      match (← system.submit rounds session Task.run text).2 with
      | .error e => failIn system file e
      | .ok _ => return 0

/-- Checks a script. -/
def checkScript (system : System m) (settings : Settings) (file : String) :
    m UInt32 := do
  match ← source system file with
  | .error e => failPlain system e
  | .ok text =>
    match Native.enable settings.natives with
    | .error name => failPlain system (.config (Native.unknownMessage name))
    | .ok natives =>
      match Source.check (Native.enabled natives) text with
      | .error e => failIn system file e
      | .ok _ =>
        system.print ("✓ " ++ file ++ " checks successfully\n")
        return 0

/-- Prints the tree of a script. -/
def printTree (system : System m) (file : String) : m UInt32 := do
  match ← source system file with
  | .error e => failPlain system e
  | .ok text =>
    match (Source.read 0 text).1 with
    | .error e => failPlain system e
    | .ok program =>
      system.print (program.toJson.pretty ++ "\n")
      return 0

/-- Prints the tokens of a script. -/
def printTokens (system : System m) (file : String) : m UInt32 := do
  match ← source system file with
  | .error e => failPlain system e
  | .ok text =>
    match tokenize text with
    | .error e => failPlain system e.toError
    | .ok found =>
      system.print (tokenLines found)
      return 0

/-- Runs the prompt. -/
def runPrompt (system : System m) (rounds : Nat) (settings : Settings) : m UInt32 := do
  match Session.ofSettings settings with
  | .error e => failPlain system e
  | .ok session =>
    system.print (Prompt.greeting version)
    Prompt.loop system rounds rounds session
    return 0

/-- Does what a command asks for and gives its status. -/
def perform (system : System m) (rounds : Nat) (settings : Settings) :
    Command → m UInt32
  | run file _ _ => runScript system rounds settings file
  | check file => checkScript system settings file
  | parse file => printTree system file
  | tokens file => printTokens system file
  | prompt => runPrompt system rounds settings

/-- Does what a command line asks for and gives its status. `rounds` bounds the strides
of each run and the lines of the prompt. -/
def respond (system : System m) (rounds : Nat) (args : List String) : m UInt32 := do
  match Arguments.read args with
  | .error .help =>
    system.print usage
    return 0
  | .error .version =>
    system.print ("quill " ++ version ++ "\n")
    return 0
  | .error .misuse =>
    system.complain usage
    return 2
  | .ok ⟨config, command⟩ =>
    match ← Settings.resolve system.toFiles config command.file? with
    | .error e => failPlain system e
    | .ok settings => perform system rounds (command.adjust settings) command

end

end Command

end Treewalk
