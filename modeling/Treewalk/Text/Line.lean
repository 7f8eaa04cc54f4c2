/-!
# Lines and white space

A line ends with a line feed, or with a carriage return and a line feed. White space is
what Unicode counts as such.
-/

namespace Treewalk.Text

/-- Whether a character is white space. -/
def isSpace (c : Char) : Bool :=
  let code := c.toNat
  (9 ≤ code && code ≤ 13) || code = 0x20 || code = 0x85 || code =
    0xa0 || code = 0x1680 || (0x2000 ≤ code && code ≤ 0x200a) || code = 0x2028 || code =
    0x2029 || code = 0x202f || code = 0x205f || code = 0x3000

/-- A line without its end. -/
def chomp (line : String) : String :=
  match line.toList.reverse with
  | '\n' :: '\r' :: rest => String.ofList rest.reverse
  | '\n' :: rest => String.ofList rest.reverse
  | _ => line

/-- The lines of a text, without their ends. The last one may have no end. -/
def lines (text : String) : List String :=
  let pieces := text.splitOn "\n"
  pieces.dropLast.map (fun piece => chomp (piece.push '\n')) ++
    pieces.getLast?.toList.filter fun piece => !piece.isEmpty

end Treewalk.Text
