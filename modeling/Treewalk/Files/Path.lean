/-!
# Paths

A path is a text with pieces between slashes. Repeated slashes, a slash at the end and
pieces `.` count for nothing, except a `.` at the very start. `parent?` takes the last
piece that counts off the text and `join` puts a name after it; neither looks at any
file.
-/

namespace Treewalk.Path

/-- The pieces between slashes, empty ones included. -/
def pieces (path : String) : List String :=
  path.splitOn "/"

/-- Whether the path starts at the root. -/
def isRooted (path : String) : Bool :=
  path.startsWith "/"

/-- Whether a piece counts, given whether it starts a path that is not rooted. -/
def counts (first : Bool) (piece : String) : Bool :=
  piece ≠ "" && (piece ≠ "." || first)

/-- The pieces, each with whether it counts. -/
def marked (path : String) : List (String × Bool) :=
  match pieces path with
  | [] => []
  | first :: rest =>
    (first, counts (!isRooted path) first) :: rest.map fun piece =>
      (piece, counts false piece)

/-- The text up to the last piece that counts, after the last one was taken off. -/
def parent? (path : String) : Option String :=
  match (marked path).reverse.dropWhile (fun piece => !piece.2) with
  | [] => none
  | _ :: before =>
    match before.dropWhile (fun piece => !piece.2) with
    | [] => some (if isRooted path then "/" else "")
    | kept => some ("/".intercalate (kept.reverse.map (·.1)))

/-- A name inside a directory. -/
def join (directory name : String) : String :=
  if directory.isEmpty then name
  else if directory.endsWith "/" then directory ++ name
  else directory ++ "/" ++ name

end Treewalk.Path
