/-!
# Edit distance and suggestions

`editDistance` is the least number of insertions, deletions and substitutions of
characters that turn one text into another. It keeps one row of the usual table at a
time: after the characters `as` have been read, entry `j` of the row is the distance
from `as` to the first `j` characters of the other text. `nearest?` picks, among
candidate names, the first of those with the least distance within a budget; the name
itself never counts as a suggestion for itself.
-/

namespace Treewalk.Text

/-- The rest of the next row. `left` is the entry just written, `row` the part of the
old row from the entry above it on, `target` the characters still to pass. -/
def extendRow (c : Char) :
    (target : List Char) → (row : List Nat) → (left : Nat) → List Nat
  | t :: target, diagonal :: above :: row, left =>
    let cost := if c = t then 0 else 1
    let entry := min (min (above + 1) (left + 1)) (diagonal + cost)
    entry :: extendRow c target (above :: row) entry
  | _, _, _ => []

/-- The row after one more character `c` of the first text. -/
def nextRow (target : List Char) (row : List Nat) (c : Char) : List Nat :=
  let first := row.headD 0 + 1
  first :: extendRow c target row first

/-- The row before any character of the first text: `j` insertions reach the first `j`
characters. -/
def firstRow (target : List Char) : List Nat :=
  List.range (target.length + 1)

/-- The distance between two lists of characters, by one row at a time. -/
def listDistance (source target : List Char) : Nat :=
  (source.foldl (nextRow target) (firstRow target)).getLastD 0

/-- The least number of single-character edits that turn one text into the other. -/
def editDistance (source target : String) : Nat :=
  listDistance source.toList target.toList

/-- The better of the best candidate so far and one more: an earlier one wins a tie. -/
def nearer (name : String) (budget : Nat) (best : Option (String × Nat))
    (candidate : String) :
    Option (String × Nat) :=
  if candidate = name then best
  else
    let distance := editDistance name candidate
    if distance ≤ budget then
      match best with
      | some (_, least) => if distance < least then some (candidate, distance) else best
      | none => some (candidate, distance)
    else best

/-- The first candidate, other than the name itself, of least distance within the
budget. -/
def nearest? (name : String) (candidates : List String) (budget : Nat) :
    Option String :=
  (candidates.foldl (nearer name budget) none).map (·.1)

/-- Short names tolerate one slip, longer ones two. -/
def editBudget (name : String) : Nat :=
  if name.length ≤ 3 then 1 else 2

/-- The suggestion that a message about an unknown name ends with, if there is one. -/
def hint : Option String → String
  | some name => " (did you mean `" ++ name ++ "`?)"
  | none => ""

end Treewalk.Text
