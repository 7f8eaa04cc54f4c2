import Treewalk.Text.Visible

/-!
# Quoted texts

`quoted` is how a piece of source or a string value is shown inside a message: between
double quotes, with the quote, the backslash and the usual control characters escaped by
a letter and every other character that `isVisible` rejects escaped by its code point in
hexadecimal. An apostrophe stands for itself.
-/

namespace Treewalk.Text

/-- The code point in lower case hexadecimal between braces, after a backslash and a
`u`. -/
def codePointEscape (c : Char) : List Char :=
  ['\\', 'u', '{'] ++ Nat.toDigits 16 c.toNat ++ ['}']

/-- How one character is written between the quotes. -/
def quotedChar (c : Char) : List Char :=
  match c with
  | '\x00' => ['\\', '0']
  | '\t' => ['\\', 't']
  | '\r' => ['\\', 'r']
  | '\n' => ['\\', 'n']
  | '\\' => ['\\', '\\']
  | '"' => ['\\', '"']
  | c => if isVisible c then [c] else codePointEscape c

/-- The text between double quotes, with everything escaped that could not be read
back. -/
def quoted (text : String) : String :=
  String.ofList ('"' :: text.toList.flatMap quotedChar ++ ['"'])

end Treewalk.Text
