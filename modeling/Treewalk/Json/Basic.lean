/-!
# JSON values

A JSON value with its object fields in order. Numbers are kept apart by form: an
integer, or a number with decimal places, which nothing here reads as an integer.
`Json.record?` reads the fields of a record by their names: an object may leave fields
out, in any order, and hold others besides; a list stands for a record if it has exactly
its fields in order.

`Json.pretty` is the indented text: two spaces a level, fields in order, an empty list
or object on one line.
-/

namespace Treewalk

/-- A JSON value. -/
inductive Json where
  | null
  | bool (b : Bool)
  | int (n : Int)
  /-- `mantissa / 10 ^ places`, written with a fraction or an exponent. -/
  | decimal (mantissa : Int) (places : Nat)
  | string (s : String)
  | array (items : List Json)
  | object (fields : List (String × Json))
deriving Inhabited

namespace Json

/-- The value of the first field of that name. -/
def field? (fields : List (String × Json)) (name : String) : Option Json :=
  (fields.find? fun f => f.1 == name).map (·.2)

/-- The values of an object's fields of these names; a field that is left out has
none. -/
def fields? (names : List String) : Json → Option (List (Option Json))
  | object fields => some (names.map (field? fields))
  | _ => none

/-- The values of a record's fields, from an object or from a list of just these
fields. -/
def record? (names : List String) : Json → Option (List (Option Json))
  | array items => if items.length = names.length then some (items.map some) else none
  | j => j.fields? names

/-- An integer from `low` up to but excluding `high`. -/
def intIn? (low high : Int) : Json → Option Int
  | int n => if low ≤ n ∧ n < high then some n else none
  | _ => none

/-- The text of a string value. -/
def string? : Json → Option String
  | string s => some s
  | _ => none

/-- The items of a list. -/
def items? : Json → Option (List Json)
  | array items => some items
  | _ => none

/-- The reading of a field that may be null or missing. -/
def optional? {α : Type} (read : Json → Option α) : Option Json → Option (Option α)
  | none => some none
  | some null => some none
  | some j => (read j).map some

/-- An alternative of a tagged union: its name, and what it carries unless it is a bare
name. -/
def tagged? : Json → Option (String × Option Json)
  | string name => some (name, none)
  | object [(name, payload)] => some (name, some payload)
  | _ => none

/-- Whether nothing, or only `null`, comes with the name of an alternative. -/
def isBare : Option Json → Bool
  | none => true
  | some null => true
  | _ => false

mutual

/-- How deep lists and objects are nested. -/
def depth : Json → Nat
  | array items => depthItems items + 1
  | object fields => depthFields fields + 1
  | _ => 1

/-- The greatest depth of a list's items. -/
def depthItems : List Json → Nat
  | [] => 0
  | item :: items => max item.depth (depthItems items)

/-- The greatest depth of an object's values. -/
def depthFields : List (String × Json) → Nat
  | [] => 0
  | (_, value) :: fields => max value.depth (depthFields fields)

end

/-! ## Texts -/

/-- Four hexadecimal digits. -/
def hex4 (n : Nat) : List Char :=
  let digits := Nat.toDigits 16 n
  List.replicate (4 - digits.length) '0' ++ digits

/-- How one character of a string is written. -/
def escapeChar (c : Char) : List Char :=
  match c with
  | '"' => ['\\', '"']
  | '\\' => ['\\', '\\']
  | '\x08' => ['\\', 'b']
  | '\x0c' => ['\\', 'f']
  | '\n' => ['\\', 'n']
  | '\r' => ['\\', 'r']
  | '\t' => ['\\', 't']
  | c => if c.toNat < 0x20 then ['\\', 'u'] ++ hex4 c.toNat else [c]

/-- A string between quotes. -/
def quote (s : String) : String :=
  String.ofList ('"' :: s.toList.flatMap escapeChar ++ ['"'])

/-- A line end and the blanks before the next item. -/
def newline (depth : Nat) : String :=
  String.ofList ('\n' :: List.replicate (2 * depth) ' ')

/-- The text of a number with decimal places. -/
def decimalText (mantissa : Int) (places : Nat) : String :=
  toString mantissa ++ "e-" ++ toString places

mutual

/-- The indented text of a value at some depth. -/
def prettyAt (depth : Nat) : Json → String
  | null => "null"
  | bool b => if b then "true" else "false"
  | int n => toString n
  | decimal mantissa places => decimalText mantissa places
  | string s => quote s
  | array [] => "[]"
  | array (item :: items) =>
    "[" ++ newline (depth + 1) ++ prettyAt (depth + 1) item ++
      prettyItems (depth + 1) items ++ newline depth ++ "]"
  | object [] => "\x7b\x7d"
  | object ((name, value) :: fields) =>
    "\x7b" ++ newline (depth + 1) ++ quote name ++ ": " ++ prettyAt (depth + 1) value ++
      prettyFields (depth + 1) fields ++ newline depth ++ "\x7d"

/-- The items of a list after the first. -/
def prettyItems (depth : Nat) : List Json → String
  | [] => ""
  | item :: items =>
    "," ++ newline depth ++ prettyAt depth item ++ prettyItems depth items

/-- The fields of an object after the first. -/
def prettyFields (depth : Nat) : List (String × Json) → String
  | [] => ""
  | (name, value) :: fields =>
    "," ++ newline depth ++ quote name ++ ": " ++ prettyAt depth value ++
      prettyFields depth fields

end

/-- The indented text of a value. -/
def pretty (j : Json) : String :=
  prettyAt 0 j

end Json

end Treewalk
