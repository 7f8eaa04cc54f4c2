import Treewalk.Error.Runtime
import Treewalk.Value.Basic

/-!
# Scopes and fields

The heap holds what a run can change: the bindings of every scope and the fields of
every instance. Scopes and instances are numbered in the order in which they are made
and never go away. A scope keeps the list of the scopes around it, the nearest first;
the list is fixed when the scope is made. So what an environment sees is the list
`Heap.chain`, and the operations on environments are list operations on it: `lookup?`
and `assign?` take the first scope that binds a name, `getAt` and `assignAt` the scope
at a given distance and no other.
-/

namespace Treewalk

/-- Bindings, and the scopes around them from the nearest to the outermost. -/
structure Scope where
  outer : List ScopeId
  bindings : Table Value

/-- Everything that a run can change and keep. -/
structure Heap where
  scopes : Array Scope
  /-- The fields of each instance. -/
  fields : Array (Table Value)
  /-- The next stamp to draw. -/
  nextStamp : Nat

namespace Heap

/-- Nothing made yet. -/
def empty : Heap :=
  ⟨#[], #[], 0⟩

/-! ## Making things -/

/-- Draws a stamp. -/
def draw (heap : Heap) : Nat × Heap :=
  (heap.nextStamp, { heap with nextStamp := heap.nextStamp + 1 })

/-- The scopes that are seen from a scope, itself first. -/
def chain (heap : Heap) (env : ScopeId) : List ScopeId :=
  match heap.scopes[env]? with
  | some scope => env :: scope.outer
  | none => []

/-- Makes a scope with the given scopes around it. -/
def makeScope (heap : Heap) (outer : List ScopeId) (bindings : Table Value) :
    ScopeId × Heap :=
  (heap.scopes.size, { heap with scopes := heap.scopes.push ⟨outer, bindings⟩ })

/-- Makes a scope inside another one. -/
def makeChild (heap : Heap) (env : ScopeId) (bindings : Table Value) : ScopeId × Heap :=
  heap.makeScope (heap.chain env) bindings

/-- Makes an instance without fields. -/
def makeInstance (heap : Heap) (cls : Class) : Instance × Heap :=
  (⟨heap.fields.size, cls⟩, { heap with fields := heap.fields.push [] })

/-! ## Bindings -/

/-- The bindings of one scope. -/
def bindings (heap : Heap) (env : ScopeId) : Table Value :=
  match heap.scopes[env]? with
  | some scope => scope.bindings
  | none => []

/-- Binds a name in a scope, in place of a binding that was there. -/
def define (heap : Heap) (env : ScopeId) (name : String) (value : Value) : Heap :=
  { heap with
    scopes := heap.scopes.modify env fun scope =>
      { scope with bindings := scope.bindings.put name value } }

/-- The value in the nearest scope that binds the name. -/
def lookup? (heap : Heap) (env : ScopeId) (name : String) : Option Value :=
  (heap.chain env).findSome? fun scope => (heap.bindings scope).get? name

/-- The nearest scope that binds the name. -/
def owner? (heap : Heap) (env : ScopeId) (name : String) : Option ScopeId :=
  (heap.chain env).find? fun scope => (heap.bindings scope).has name

/-- Changes the binding in the nearest scope that has one. -/
def assign? (heap : Heap) (env : ScopeId) (name : String) (value : Value) :
    Option Heap :=
  (heap.owner? env name).map fun scope => heap.define scope name value

/-- The scope that many steps out, or how many steps were left when the chain ended. -/
def ancestor (heap : Heap) (env : ScopeId) (distance : Nat) : Except Nat ScopeId :=
  let chain := heap.chain env
  match chain[distance]? with
  | some scope => .ok scope
  | none => .error (distance + 1 - chain.length)

/-- The value in the scope at a distance. -/
def getAt (heap : Heap) (env : ScopeId) (distance : Nat) (name : String) :
    Except Cause Value :=
  match heap.ancestor env distance with
  | .error left => .error (.missingScope name left)
  | .ok scope =>
    match (heap.bindings scope).get? name with
    | some value => .ok value
    | none => .error (.undefinedVariable name [])

/-- The scope at a distance, if it binds the name. -/
def slotAt (heap : Heap) (env : ScopeId) (distance : Nat) (name : String) :
    Except Cause ScopeId :=
  match heap.ancestor env distance with
  | .error left => .error (.missingScope name left)
  | .ok scope =>
    if (heap.bindings scope).has name then .ok scope
    else .error (.undefinedVariable name [])

/-- Changes the binding in the scope at a distance. -/
def assignAt (heap : Heap) (env : ScopeId) (distance : Nat) (name : String)
    (value : Value) :
    Except Cause Heap :=
  (heap.slotAt env distance name).map fun scope => heap.define scope name value

/-- The names that an environment sees, scope by scope. -/
def visibleTables (heap : Heap) (env : ScopeId) : List (List String) :=
  (heap.chain env).map fun scope => (heap.bindings scope).names

/-- The names that an environment sees, with repeats. -/
def visibleNames (heap : Heap) (env : ScopeId) : List String :=
  (heap.visibleTables env).flatten

/-! ## What making and defining do to the view

Defining a name changes the bindings of one scope and no chain; making a scope changes
nothing that was there before. -/

theorem bindings_define_self {heap : Heap} {env : ScopeId} (h : env < heap.scopes.size)
    (name : String) (value : Value) :
    (heap.define env name value).bindings env = (heap.bindings env).put name value := by
  simp only [bindings, define, Array.getElem?_modify, Array.getElem?_eq_getElem h]
  simp

theorem bindings_define_of_ne {heap : Heap} {env other : ScopeId} (h : other ≠ env)
    (name : String) (value : Value) :
    (heap.define env name value).bindings other = heap.bindings other := by
  have hne : ¬env = other := fun same => h same.symm
  simp only [bindings, define, Array.getElem?_modify, hne, if_false]

@[simp] theorem chain_define (heap : Heap) (env : ScopeId) (name : String)
    (value : Value) (other : ScopeId) :
    (heap.define env name value).chain other = heap.chain other := by
  simp only [chain, define, Array.getElem?_modify]
  by_cases h : env = other
  · cases heap.scopes[other]? <;> simp [h]
  · simp [h]

theorem chain_makeScope_self (heap : Heap) (outer : List ScopeId)
    (table : Table Value) :
    (heap.makeScope outer table).2.chain heap.scopes.size = heap.scopes.size ::
      outer := by
  simp [chain, makeScope]

theorem chain_makeScope_of_lt {heap : Heap} {env : ScopeId} (h : env < heap.scopes.size)
    (outer : List ScopeId) (table : Table Value) :
    (heap.makeScope outer table).2.chain env = heap.chain env := by
  have hne : env ≠ heap.scopes.size := Nat.ne_of_lt h
  simp [chain, makeScope, Array.getElem?_push, hne]

/-! ## Instances and methods -/

/-- The fields of an instance. -/
def fieldsOf (heap : Heap) (inst : Instance) : Table Value :=
  heap.fields[inst.address]?.getD []

/-- Sets a field of an instance. -/
def setField (heap : Heap) (inst : Instance) (name : String) (value : Value) : Heap :=
  { heap with fields := heap.fields.modify inst.address fun fields =>
    fields.put name value }

/-- Makes a function value. -/
def makeFunction (heap : Heap) (decl : FunctionDecl) (closure : ScopeId)
    (isInit : Bool) :
    Function × Heap :=
  let (stamp, heap) := heap.draw
  (⟨stamp, decl, closure, isInit⟩, heap)

/-- Makes the methods of a class, of which the last one of a name stays. -/
def makeMethods (closure : ScopeId) :
    Table Function × Heap → List FunctionDecl → Table Function × Heap
  | made, [] => made
  | (methods, heap), decl :: rest =>
    let (function, heap) :=
      heap.makeFunction decl closure (decl.name.node == Class.initializer)
    makeMethods closure (methods.put decl.name.node function, heap) rest

/-- Makes a class whose methods see the given scope. -/
def makeClass (heap : Heap) (name : String) (superclass : Option Class)
    (methods : List FunctionDecl) (closure : ScopeId) : Class × Heap :=
  let (methods, heap) := makeMethods closure ([], heap) methods
  let (stamp, heap) := heap.draw
  (.mk stamp name superclass methods, heap)

/-- A method with its receiver: the same body in a scope of its own that binds
`this`. -/
def bind (heap : Heap) (method : Function) (receiver : Value) : Function × Heap :=
  let (closure, heap) := heap.makeChild method.closure [("this", receiver)]
  heap.makeFunction method.decl closure method.isInit

/-- What a name means for an instance. -/
inductive Property where
  | field (value : Value)
  | method (method : Function)

/-- The property of an instance: a field, or else a method of its class. -/
def property? (heap : Heap) (inst : Instance) (name : String) : Option Property :=
  match (heap.fieldsOf inst).get? name with
  | some value => some (.field value)
  | none => (inst.cls.findMethod? name).map .method

end Heap

end Treewalk
