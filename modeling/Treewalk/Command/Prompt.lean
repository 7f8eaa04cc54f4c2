import Treewalk.Command.System
import Treewalk.Text.Sorted

/-!
# The prompt

The prompt takes a line at a time. A line that starts with a colon is a command of the
prompt; any other line is run in one session, with a semicolon added where it ends in
neither a semicolon nor a closing brace. The value of a lone expression is shown if it
is of a kind that is printed.
-/

namespace Treewalk.Prompt

open Text (isSpace)

/-- A line without the white space at its ends. -/
def trimmed (line : String) : String :=
  String.ofList (((line.toList.dropWhile isSpace).reverse.dropWhile isSpace).reverse)

/-- The text that a line stands for. -/
def completed (line : String) : String :=
  match line.toList.getLast? with
  | some ';' => line
  | some '\x7d' => line
  | _ => line ++ ";"

/-- What a line asks of the prompt. -/
inductive Request where
  | nothing
  | quit
  | help
  | clear
  | globals
  | unknown (command : String)
  | source (text : String)
deriving DecidableEq

/-- The request of a trimmed line that starts with a colon. -/
def Request.ofCommand (line : String) : Request :=
  if line = ":quit" || line = ":q" || line = ":exit" then .quit
  else if line = ":help" || line = ":h" || line = ":?" then .help
  else if line = ":clear" then .clear
  else if line = ":globals" then .globals
  else .unknown line

/-- The request of a line. -/
def Request.ofLine (line : String) : Request :=
  let line := trimmed line
  match line.toList with
  | [] => .nothing
  | ':' :: _ => .ofCommand line
  | _ => .source (completed line)

/-- What the prompt says at its start. -/
def greeting (version : String) : String :=
  "Quill REPL v" ++ version ++ "\nType :help for help, :quit to exit.\n\n"

/-- What the prompt says at its end. -/
def farewell : String :=
  "Goodbye!\n"

/-- What takes the screen back to its start. -/
def clearScreen : String :=
  "\x1b[2J\x1b[1;1H"

/-- The help of the prompt. -/
def helpText (natives : List Native) : String :=
  "Quill REPL Commands:\n" ++
  "  :help, :h, :?   Show this help\n" ++
  "  :quit, :q       Exit the REPL\n" ++
  "  :clear          Clear the screen\n" ++
  "  :globals        List names defined so far\n" ++
  "\n" ++
  "You can enter:\n" ++
  "  - Statements: var x = 1;  printLine(x);\n" ++
  "  - Declarations: func add(a, b) = \x7b return a + b; \x7d\n" ++
  "  - Expressions: add(1, 2);\n" ++
  "\n" ++
  "Natives:\n" ++
  String.join (natives.map fun offered => "  " ++ offered.name ++ "\n")

/-- What the prompt shows for the outcome of a line. -/
def shown : Except Error (Option Value) → String
  | .ok (some value) => if value.isPrintable then value.text ++ "\n" else ""
  | _ => ""

section

variable {m : Type → Type} [Monad m]

/-- Answers one request; `none` ends the prompt. -/
def answer (system : System m) (rounds : Nat) (session : Session) :
    Request → m (Option Session)
  | .nothing => return some session
  | .quit => do
    system.print farewell
    return none
  | .help => do
    system.print (helpText session.natives)
    return some session
  | .clear => do
    system.print clearScreen
    return some session
  | .globals => do
    system.print (" ".intercalate (Text.sorted session.globalNames) ++ "\n")
    return some session
  | .unknown command => do
    system.print ("Unknown command: " ++ command ++ "\nType :help for help.\n")
    return some session
  | .source text => do
    let (session, result) ← system.submit rounds session Task.ofLine text
    match result with
    | .error e => system.complain ("<repl>: " ++ e.text system.visit ++ "\n")
    | .ok _ => system.print (shown result)
    return some session

/-- Takes lines until there are no more or the prompt is left; `lines` bounds their
number. -/
def loop (system : System m) (rounds : Nat) : Nat → Session → m Unit
  | 0, _ => return ()
  | lines + 1, session => do
    match ← system.readLine with
    | none => system.print farewell
    | some line =>
      match ← answer system rounds session (.ofLine line) with
      | some session => loop system rounds lines session
      | none => return ()

end

end Treewalk.Prompt
