import Treewalk.Error.Runtime

/-!
# Errors of a whole program

What can go wrong between reading a text and the end of its run, by stage. Each stage
has its own type of causes; here they meet as a message with a place, which is all that
a report needs.
-/

namespace Treewalk

/-- An error of a program, by the stage that found it. -/
inductive Error where
  | lexer (message : String) (span : Span)
  | parser (message : String) (span : Span)
  | resolve (message : String) (span : Span)
  | io (message : String)
  | config (message : String)
  | runtime (error : RuntimeError)
deriving DecidableEq

namespace Error

/-- The place of the fault, where it has one. -/
def span? : Error → Option Span
  | lexer _ span => some span
  | parser _ span => some span
  | resolve _ span => some span
  | io _ => none
  | config _ => none
  | runtime error => error.span

/-- The error as it is reported: its stage and place before the message. -/
def text (visit : Visit) : Error → String
  | lexer message span => "Lexer error at " ++ span.text ++ ": " ++ message
  | parser message span => "Parser error at " ++ span.text ++ ": " ++ message
  | resolve message span => "Resolve error at " ++ span.text ++ ": " ++ message
  | io message => "IO error: " ++ message
  | config message => "Config error: " ++ message
  | runtime error => error.text visit

end Error

end Treewalk
