import Treewalk.Span
import Treewalk.Text.Distance
import Treewalk.Value.Kind

/-!
# What can go wrong in a run

A `Cause` says what is wrong in the terms of the program; its kind and its wording are
functions of it (`Cause.kind`, `Cause.message`). The wording for an unknown name ends
with the nearest of the names that are known. They stand in tables, whose names are
visited in an order that may be any, and of names equally near the one visited first is
taken; so the order is an argument of the wording.

A `RuntimeError` adds the place, which the innermost expression around the fault
supplies: `RuntimeError.locate` keeps a place that is already there.
-/

namespace Treewalk

/-- The kinds of runtime error. -/
inductive ErrorKind where
  | typeError | divisionByZero | arityMismatch
  | bindingError | nativeFault | stackOverflow
deriving DecidableEq

/-- The four operations of arithmetic. -/
inductive Arithmetic where
  | add | sub | mul | div
deriving DecidableEq

/-- The verb for an operation in messages. -/
def Arithmetic.verb : Arithmetic → String
  | add => "add"
  | sub => "subtract"
  | mul => "multiply"
  | div => "divide"

/-- An order in which to visit the names of a table. -/
structure Visit where
  order : List String → List String
  perm (names : List String) : (order names).Perm names

/-- The order in which the names were put. -/
def Visit.asPut : Visit :=
  ⟨id, List.Perm.refl⟩

/-- The cause of a runtime error. -/
inductive Cause where
  /-- An operation on two strings that only numbers have. -/
  | stringArithmetic (op : Arithmetic)
  /-- An operation on kinds that do not go together. -/
  | mixedArithmetic (op : Arithmetic) (left right : Kind)
  /-- An ordering with a string on either side. -/
  | stringOrder
  | mixedOrder (left right : Kind)
  /-- An equality test on something that has no written form. -/
  | equalityOf (kind : Kind)
  | negationOf (kind : Kind)
  | superclassOf (name : String) (kind : Kind)
  | fieldsOf (kind : Kind)
  | propertiesOf (kind : Kind)
  | notCallable (name : String) (kind : Kind)
  /-- A call of something other than a name, a property or a method of the
  superclass. -/
  | unnamedCallee
  | divisionByZero
  | arity (name : String) (expected got : Nat)
  /-- No such variable; the names that are known, table by table. -/
  | undefinedVariable (name : String) (known : List (List String))
  /-- The environment ended this many scopes below the one that was asked for. -/
  | missingScope (name : String) (distance : Nat)
  | undefinedProperty (name : String) (known : List (List String))
  | nativeFault (name message : String)
  | stackOverflow (limit : Nat)
deriving DecidableEq

namespace Cause

/-- The kind of error that a cause is. -/
def kind : Cause → ErrorKind
  | divisionByZero => .divisionByZero
  | arity .. => .arityMismatch
  | undefinedVariable .. => .bindingError
  | missingScope .. => .bindingError
  | undefinedProperty .. => .bindingError
  | nativeFault .. => .nativeFault
  | stackOverflow .. => .stackOverflow
  | _ => .typeError

/-- The end of a message about an unknown name: the nearest known one. -/
def hint (visit : Visit) (name : String) (known : List (List String)) : String :=
  Text.hint (Text.nearest? name (known.flatMap visit.order) (Text.editBudget name))

/-- The wording of a cause. -/
def message (visit : Visit) : Cause → String
  | stringArithmetic op => "cannot " ++ op.verb ++ " strings"
  | mixedArithmetic op left right =>
    "cannot " ++ op.verb ++ " types: " ++ left.text ++ " and " ++ right.text
  | stringOrder => "cannot compare strings"
  | mixedOrder left right =>
    "cannot compare types: " ++ left.text ++ " and " ++ right.text
  | equalityOf kind => "cannot compare " ++ kind.text ++ " for equality"
  | negationOf kind => "cannot negate " ++ kind.text
  | superclassOf name kind =>
    "superclass of " ++ name ++ " must be a class, got " ++ kind.text
  | fieldsOf kind => "only instances have fields, got " ++ kind.text
  | propertiesOf kind => "only instances have properties, got " ++ kind.text
  | notCallable name kind => name ++ " is not callable (" ++ kind.text ++ ")"
  | unnamedCallee => "only named functions and methods can be called"
  | divisionByZero => "division by zero"
  | arity name expected got =>
    name ++ " expects " ++ toString expected ++ " argument(s), got " ++ toString got
  | undefinedVariable name known =>
    "undefined variable: " ++ name ++ hint visit name known
  | missingScope name distance =>
    "no enclosing scope " ++ toString distance ++ " level(s) up for " ++ name
  | undefinedProperty name known =>
    "undefined property: " ++ name ++ hint visit name known
  | nativeFault name message => name ++ ": " ++ message
  | stackOverflow limit => "stack overflow: call depth exceeded " ++ toString limit

end Cause

/-- A cause at a place, if the place is known. -/
structure RuntimeError where
  cause : Cause
  span : Option Span
deriving DecidableEq

namespace RuntimeError

/-- Supplies the place, unless one is there already. -/
def locate (e : RuntimeError) (span : Span) : RuntimeError :=
  ⟨e.cause, some (e.span.getD span)⟩

/-- The error as it is reported. -/
def text (visit : Visit) (e : RuntimeError) : String :=
  "Runtime error: " ++ e.cause.message visit

end RuntimeError

end Treewalk
