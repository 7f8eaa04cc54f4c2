import Treewalk.Table

/-!
# TOML documents

A document is a tree of tables. A table remembers how it came to be, because that
decides what may still be added to it: an inline table is closed; a table named only on
the way to another one can get a header of its own later; a table made by dotted keys
can only be extended by more dotted keys; and a table with a header has no second one.
-/

namespace Treewalk

/-- How a table came to be. -/
inductive TableOrigin where
  /-- Written between braces. -/
  | inline
  /-- Named on the way to the table of a header. -/
  | implied
  /-- Named on the way of a dotted key. -/
  | dotted
  /-- Named by a header. -/
  | header
deriving DecidableEq

/-- Values of a document. -/
inductive Toml where
  | string (text : String)
  | integer (value : Int)
  | bool (value : Bool)
  /-- A number with a fraction or an exponent, whose value is not kept. -/
  | float
  | array (items : List Toml)
  | table (origin : TableOrigin) (fields : List (String × Toml))
  /-- The tables of repeated headers between double brackets. -/
  | tables (items : List Toml)

namespace Toml

/-- Adds a value under a dotted key. The tables on the way are made where they are
missing; the last of them has to be one of dotted keys, which `allowed` tells of the
table at hand. -/
def insert (allowed : Bool) (value : Toml) :
    List String → Table Toml → Option (Table Toml)
  | [], _ => none
  | [key], fields =>
    if allowed && !fields.has key then some (fields.put key value) else none
  | key :: path, fields =>
    match fields.get? key with
    | none =>
      (insert true value path []).map fun inner => fields.put key (.table .dotted inner)
    | some (.table .dotted inner) =>
      (insert true value path inner).map fun inner =>
        fields.put key (.table .dotted inner)
    | some (.table .implied inner) =>
      (insert false value path inner).map fun inner =>
        fields.put key (.table .implied inner)
    | some _ => none

/-- Changes the table that the path of a header leads to. Tables on the way are made
where they are missing; of repeated tables the last one is meant. -/
def modifyAt (change : Table Toml → Option (Table Toml)) :
    List String → Table Toml → Option (Table Toml)
  | [], fields => change fields
  | key :: path, fields =>
    match fields.get? key with
    | none =>
      (modifyAt change path []).map fun inner => fields.put key (.table .implied inner)
    | some (.table .inline _) => none
    | some (.table origin inner) =>
      (modifyAt change path inner).map fun inner => fields.put key (.table origin inner)
    | some (.tables items) =>
      match items.getLast? with
      | some (.table origin inner) =>
        (modifyAt change path inner).map fun inner =>
          fields.put key (.tables (items.dropLast ++ [.table origin inner]))
      | _ => none
    | some _ => none

/-- Opens the table of a header. -/
def openTable (key : String) (fields : Table Toml) : Option (Table Toml) :=
  match fields.get? key with
  | none => some (fields.put key (.table .header []))
  | some (.table .implied inner) => some (fields.put key (.table .header inner))
  | some _ => none

/-- Opens one more table of a repeated header. -/
def openItem (key : String) (fields : Table Toml) : Option (Table Toml) :=
  match fields.get? key with
  | none => some (fields.put key (.tables [.table .header []]))
  | some (.tables items) =>
    some (fields.put key (.tables (items ++ [.table .header []])))
  | some _ => none

/-! ## Reading values -/

/-- The text of a string. -/
def string? : Toml → Option String
  | string text => some text
  | _ => none

/-- A number that is not negative. -/
def natural? : Toml → Option Nat
  | integer value => if 0 ≤ value then some value.toNat else none
  | _ => none

/-- The elements of an array. -/
def items? : Toml → Option (List Toml)
  | array items => some items
  | tables items => some items
  | _ => none

/-- Whether a value is a table or an array with nothing in it. -/
def isHollow : Toml → Bool
  | array items => items.isEmpty
  | tables items => items.isEmpty
  | table _ fields => fields.isEmpty
  | _ => false

/-- The name of an alternative: a string, or a table with that one key and nothing under
it. -/
def choice? : Toml → Option String
  | string text => some text
  | table _ [(key, value)] => if value.isHollow then some key else none
  | _ => none

/-- The fields of a record in the given order, each of which may be absent. A record is
a table without other keys, or an array of the first fields. -/
def record? (names : List String) : Toml → Option (List (Option Toml))
  | table _ fields =>
    if (Table.names fields).all names.contains then
      some (names.map fun name => Table.get? name fields)
    else none
  | value =>
    value.items?.map fun items => (List.range names.length).map fun i => items[i]?

end Toml

end Treewalk
