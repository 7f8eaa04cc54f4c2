/-!
# Host capabilities

The functions that the host offers to a script: the time, the text of a file, and the
free memory. A run enables some of them; `Native.enable` turns a list of names, in any
order and with repeats, into the enabled capabilities in the order of their names, or
gives the first name that is none.
-/

namespace Treewalk

/-- A capability of the host. -/
inductive Native where
  | clock | fileOpen | availableMemory
deriving DecidableEq

namespace Native

/-- The name under which a script calls it. -/
def name : Native → String
  | clock => "clock"
  | fileOpen => "fileOpen"
  | availableMemory => "getAvailableMemory"

/-- The number of arguments that it takes. -/
def arity : Native → Nat
  | clock => 0
  | fileOpen => 1
  | availableMemory => 0

/-- Every capability, in the order of their names. -/
def all : List Native :=
  [clock, fileOpen, availableMemory]

/-- The one among some capabilities that has a name. -/
def named? (name : String) (natives : List Native) : Option Native :=
  natives.find? fun native => native.name == name

/-- Whether some capability has the name. -/
def enabled (natives : List Native) (name : String) : Bool :=
  (named? name natives).isSome

/-- The first name that no capability has. -/
def unknown? (names : List String) : Option String :=
  names.find? fun name => !enabled all name

/-- The capabilities named, or the first name that is none. -/
def enable (names : List String) : Except String (List Native) :=
  match unknown? names with
  | some name => .error name
  | none => .ok (all.filter fun native => names.contains native.name)

/-- The wording for a name that no capability has. -/
def unknownMessage (name : String) : String :=
  "unknown native capability `" ++ name ++ "` (available: " ++
    ", ".intercalate (all.map Native.name) ++ ")"

end Native

end Treewalk
