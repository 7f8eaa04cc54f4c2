import Treewalk.Error.Basic
import Treewalk.Scope.Resolve
import Treewalk.Token.Scan
import Treewalk.Tree.Parser

/-!
# From a text to a program

Reading a program splits its text into tokens, parses them and, where it is to be
checked or run, resolves its scopes. Each stage works on the whole result of the stage
before, so the error of the earliest stage is the one reported.
-/

namespace Treewalk

/-- An error of the scanner as an error of the program. -/
def LexError.toError (e : LexError) : Error :=
  .lexer e.message e.span

/-- An error of the parser as an error of the program. -/
def ParseError.toError (e : ParseError) : Error :=
  .parser e.message e.span

/-- An error of resolution as an error of the program. -/
def ResolveError.toError (e : ResolveError) : Error :=
  .resolve e.message e.span

namespace Source

/-- Reads a program whose nodes are numbered from `firstId` on, and gives the next free
number. A text with a parse error uses up numbers too, as many as the parser had
drawn. -/
def read (firstId : NodeId) (source : String) : Except Error Program × NodeId :=
  match tokenize source with
  | .error e => (.error e.toError, firstId)
  | .ok tokens =>
    match parse firstId tokens with
    | (.error e, nextId) => (.error e.toError, nextId)
    | (.ok program, nextId) => (.ok program, nextId)

/-- Reads and resolves a program on its own. -/
def check (natives : String → Bool) (source : String) : Except Error Program :=
  match (read 0 source).1 with
  | .error e => .error e
  | .ok program =>
    match program.resolve natives [] with
    | .error e => .error e.toError
    | .ok _ => .ok program

end Source

end Treewalk
