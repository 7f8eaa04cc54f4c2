import Treewalk.Toml.Word

/-!
# Reading TOML documents

A document is read line by line. A header names the table that the lines after it add
to. The readers of nested values take the number of characters as a bound on their
depth, which no document exceeds.
-/

namespace Treewalk.Toml

mutual

/-- Takes a value. -/
def value? : Nat → List Char → Option (Toml × List Char)
  | 0, _ => none
  | fuel + 1, text =>
    match text with
    | '"' :: _ => (quoted? text).map fun (s, rest) => (.string s, rest)
    | '\'' :: _ => (quoted? text).map fun (s, rest) => (.string s, rest)
    | '[' :: rest =>
      (elements? fuel (skipFiller false rest)).map fun (items, rest) =>
        (.array items, rest)
    | '\x7b' :: rest =>
      match skipBlanks rest with
      | '\x7d' :: rest => some (.table .inline [], rest)
      | rest =>
        (pairs? fuel [] rest).map fun (fields, rest) => (.table .inline fields, rest)
    | text =>
      (ofWord? (text.takeWhile isWordChar)).map fun value =>
        (value, text.dropWhile isWordChar)

/-- Takes the rest of an array, up to its bracket. -/
def elements? : Nat → List Char → Option (List Toml × List Char)
  | 0, _ => none
  | _ + 1, ']' :: rest => some ([], rest)
  | fuel + 1, text => do
    let (value, rest) ← value? fuel text
    match skipFiller false rest with
    | ',' :: rest =>
      let (values, rest) ← elements? fuel (skipFiller false rest)
      return (value :: values, rest)
    | ']' :: rest => return ([value], rest)
    | _ => none

/-- Takes the rest of an inline table, up to its brace. -/
def pairs? : Nat → Table Toml → List Char → Option (Table Toml × List Char)
  | 0, _, _ => none
  | fuel + 1, fields, text => do
    let (key, rest) ← key? fuel text
    match rest with
    | '=' :: rest =>
      let (value, rest) ← value? fuel (skipBlanks rest)
      let fields ← insert true value key fields
      match skipBlanks rest with
      | ',' :: rest => pairs? fuel fields (skipBlanks rest)
      | '\x7d' :: rest => return (fields, rest)
      | _ => none
    | _ => none

end

/-- What a document holds so far, and the path of the header that its lines stand
under. -/
structure Reading where
  fields : Table Toml
  header : List String

/-- Takes the path of a header and its closing bracket. -/
def headerPath? (fuel : Nat) (text : List Char) : Option (List String × List Char) := do
  let (path, rest) ← key? fuel (skipBlanks text)
  match rest with
  | ']' :: rest => return (path, rest)
  | _ => none

/-- Opens the table that a header names. -/
def Reading.openHeader (reading : Reading) (path : List String)
    (change : String → Table Toml → Option (Table Toml)) : Option Reading := do
  let last ← path.getLast?
  let fields ← modifyAt (change last) path.dropLast reading.fields
  return ⟨fields, path⟩

/-- Takes what stands on one line. -/
def line? (fuel : Nat) (reading : Reading) (text : List Char) :
    Option (Reading × List Char) := do
  match text with
  | '[' :: '[' :: rest =>
    match ← headerPath? fuel rest with
    | (path, ']' :: rest) => return (← reading.openHeader path openItem, rest)
    | _ => none
  | '[' :: rest =>
    let (path, rest) ← headerPath? fuel rest
    return (← reading.openHeader path openTable, rest)
  | text =>
    match ← key? fuel text with
    | (key, '=' :: rest) =>
      let (value, rest) ← value? fuel (skipBlanks rest)
      let fields ← modifyAt (insert true value key) reading.header reading.fields
      return (⟨fields, reading.header⟩, rest)
    | _ => none

/-- Reads the lines of a document. -/
def lines? : Nat → Reading → List Char → Option Reading
  | 0, _, _ => none
  | fuel + 1, reading, text =>
    match endLine? text with
    | some [] => some reading
    | some rest => lines? fuel reading rest
    | none => do
      let (reading, rest) ← line? (fuel + 1) reading (skipBlanks text)
      match ← endLine? rest with
      | [] => return reading
      | rest => lines? fuel reading rest

/-- Reads a document. -/
def parse? (text : String) : Option Toml :=
  let chars := match text.toList with
    | '\ufeff' :: rest => rest
    | chars => chars
  (lines? (chars.length + 2) ⟨[], []⟩ chars).map fun reading =>
    .table .header reading.fields

end Treewalk.Toml
