import Treewalk.Native.Basic
import Treewalk.Table
import Treewalk.Text.Quoted
import Treewalk.Tree.Basic
import Treewalk.Value.Kind

/-!
# Values

What never changes about a function or a class stands in the value itself; what can
change, the bindings of a scope and the fields of an instance, is in the heap and the
value holds its address. Functions, classes and faults carry a stamp that is drawn when
they are made, so that two of them are the same exactly when their stamps are. A class
holds its superclass, so every chain of superclasses ends.
-/

namespace Treewalk

/-- The address of a scope. -/
abbrev ScopeId := Nat

/-- A declared function with the scope that its body sees. -/
structure Function where
  stamp : Nat
  decl : FunctionDecl
  closure : ScopeId
  /-- Whether it sets up new instances of its class. -/
  isInit : Bool

namespace Function

/-- The declared name. -/
def name (function : Function) : String :=
  function.decl.name.node

/-- The number of arguments that it takes. -/
def arity (function : Function) : Nat :=
  function.decl.arity

end Function

/-- A class with its methods by name. -/
inductive Class where
  | mk (stamp : Nat) (name : String) (superclass : Option Class)
      (methods : Table Function)

namespace Class

/-- The name of the method that sets up a new instance. -/
def initializer : String :=
  "init"

/-- What tells the class apart from all others. -/
def stamp : Class → Nat
  | mk stamp _ _ _ => stamp

/-- The declared name. -/
def name : Class → String
  | mk _ name _ _ => name

/-- The class that it inherits from. -/
def superclass? : Class → Option Class
  | mk _ _ superclass _ => superclass

/-- The methods that it declares itself. -/
def methods : Class → Table Function
  | mk _ _ _ methods => methods

/-- The method of that name, of the nearest class that declares one. -/
def findMethod? (name : String) : Class → Option Function
  | mk _ _ none methods => methods.get? name
  | mk _ _ (some superclass) methods =>
    match methods.get? name with
    | some method => some method
    | none => findMethod? name superclass

/-- The number of arguments that a new instance takes. -/
def arity (cls : Class) : Nat :=
  match cls.findMethod? initializer with
  | some init => init.arity
  | none => 0

end Class

/-- What can be called. -/
inductive Callable where
  | function (function : Function)
  | cls (cls : Class)
  | native (native : Native)

namespace Callable

/-- The name that it was declared with. -/
def name : Callable → String
  | function f => f.name
  | cls c => c.name
  | native n => n.name

/-- The number of arguments that it takes. -/
def arity : Callable → Nat
  | function f => f.arity
  | cls c => c.arity
  | native n => n.arity

/-- Whether two of them are one and the same. -/
def same : Callable → Callable → Bool
  | function a, function b => a.stamp == b.stamp
  | cls a, cls b => a.stamp == b.stamp
  | native a, native b => a == b
  | _, _ => false

/-- A callable as it is shown. -/
def text (callable : Callable) : String :=
  "<fn " ++ callable.name ++ ">"

end Callable

/-- An instance: the address of its fields, and its class. -/
structure Instance where
  address : Nat
  cls : Class

/-- The failure of a host capability. -/
structure NativeFault where
  capability : String
  message : String
deriving DecidableEq

/-- A fault as it is shown. -/
def NativeFault.text (fault : NativeFault) : String :=
  fault.capability ++ ": " ++ fault.message

/-- Values. -/
inductive Value where
  | number (n : Int64)
  | string (s : String)
  | bool (b : Bool)
  | callable (callable : Callable)
  | cls (cls : Class)
  | inst (inst : Instance)
  | fault (stamp : Nat) (fault : NativeFault)
  | nothing

namespace Value

/-- What sort of thing a value is. A class that was wrapped as a callable counts as a
function. -/
def kind : Value → Kind
  | number _ => .number
  | string _ => .string
  | bool _ => .bool
  | callable _ => .function
  | cls _ => .cls
  | inst _ => .inst
  | fault _ _ => .fault
  | nothing => .nothing

/-- Only `nil` and `false` count as false. -/
def isTruthy : Value → Bool
  | nothing => false
  | bool b => b
  | _ => true

/-- Whether printing the value writes anything. -/
def isPrintable : Value → Bool
  | number _ => true
  | string _ => true
  | bool _ => true
  | _ => false

/-- The number that a value is. -/
def number? : Value → Option Int64
  | number n => some n
  | _ => none

/-- A value as something to call. -/
def callable? : Value → Option Callable
  | callable c => some c
  | cls c => some (.cls c)
  | _ => none

/-- A value as it is printed. -/
def text : Value → String
  | number n => toString n.toInt
  | string s => s
  | bool b => if b then "true" else "false"
  | callable c => c.text
  | cls c => "<class " ++ c.name ++ ">"
  | inst i => "<" ++ i.cls.name ++ " instance>"
  | fault _ f => "<fault " ++ f.text ++ ">"
  | nothing => "nil"

/-- Whether two values are the same: numbers, strings and booleans by what they are, all
else by identity. -/
def same : Value → Value → Bool
  | nothing, nothing => true
  | number a, number b => a == b
  | string a, string b => a == b
  | bool a, bool b => a == b
  | callable a, callable b => a.same b
  | cls a, cls b => a.stamp == b.stamp
  | inst a, inst b => a.address == b.address
  | fault a _, fault b _ => a == b
  | _, _ => false

/-- The value of a literal. -/
def ofLiteral : Literal → Value
  | .number n => number n
  | .string s => string s
  | .bool b => bool b
  | .nil => nothing

end Value

end Treewalk
