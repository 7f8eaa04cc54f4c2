import Treewalk.Machine.Basic

/-!
# Names in a run

A name is read from the top call frame first, then from the scope at its recorded
distance, and without a distance from the global scope (`Context.read`). An assignment
changes the frame and the scope together where both bind the name: `Context.slots` finds
the places and `World.assign` changes them, so nothing is changed where there is no
place. `this` and `super` are looked for along the scopes.
-/

namespace Treewalk

/-! ## Variables -/

/-- The value of a global name. -/
def World.readGlobal (world : World) (name : String) (env : ScopeId) :
    Except Cause Value :=
  match (world.heap.bindings globalScope).get? name with
  | some value => .ok value
  | none =>
    .error (.undefinedVariable name
      (world.heap.visibleTables env ++ [(world.heap.bindings globalScope).names]))

/-- The value of a name in the frame of the call, where frames are looked at. -/
def Context.frameValue? (ctx : Context) (world : World) (name : String) :
    Option Value :=
  match ctx.discipline with
  | .frames => world.frames.get? name
  | .scopes => none

/-- The value of a name at a node. -/
def Context.read (ctx : Context) (world : World) (name : String) (id : NodeId)
    (env : ScopeId) :
    Except Cause Value :=
  match ctx.frameValue? world name with
  | some value => .ok value
  | none =>
    match ctx.resolution.distance? id with
    | some distance => world.heap.getAt env distance name
    | none => world.readGlobal name env

/-- The scope that holds the name of an assignment. -/
def Context.scopeSlot (ctx : Context) (world : World) (name : String) (id : NodeId)
    (env : ScopeId) : Except Cause ScopeId :=
  match ctx.resolution.distance? id with
  | some distance => world.heap.slotAt env distance name
  | none => (world.readGlobal name env).map fun _ => globalScope

/-- The places that an assignment changes: the top frame or not, and a scope or none. -/
structure Slots where
  frame : Bool
  scope : Option ScopeId
deriving DecidableEq

/-- The places that an assignment changes, at least one. -/
def Context.slots (ctx : Context) (world : World) (name : String) (id : NodeId)
    (env : ScopeId) :
    Except Cause Slots :=
  let frame := (ctx.frameValue? world name).isSome
  match ctx.scopeSlot world name id env with
  | .ok scope => .ok ⟨frame, some scope⟩
  | .error cause => if frame then .ok ⟨true, none⟩ else .error cause

/-- Puts the value into the places of an assignment. -/
def World.assign (world : World) (slots : Slots) (name : String) (value : Value) :
    World :=
  let ⟨heap, frames, output⟩ := world
  let frames := if slots.frame then frames.add name value else frames
  match slots.scope with
  | some scope => ⟨heap.define scope name value, frames, output⟩
  | none => ⟨heap, frames, output⟩

/-! ## Properties and methods -/

/-- What `super.name` means: the method of the superclass, and its receiver. -/
def World.superMethod (world : World) (name : String) (env : ScopeId) :
    Except Cause (Function × Value) :=
  match world.heap.lookup? env "super" with
  | some (.cls superclass) =>
    match world.heap.lookup? env "this" with
    | none => .error (.undefinedVariable "this" [])
    | some receiver =>
      match superclass.findMethod? name with
      | none => .error (.undefinedProperty name [])
      | some method => .ok (method, receiver)
  | _ => .error (.undefinedVariable "super" [])

/-- A method bound to its receiver, as a value. -/
def World.bind (world : World) (method : Function) (receiver : Value) : Value × World :=
  let ⟨heap, frames, output⟩ := world
  let (bound, heap) := heap.bind method receiver
  (.callable (.function bound), ⟨heap, frames, output⟩)

/-- What a name means for a value, or why it means nothing. -/
def World.property (world : World) (object : Value) (name : String) :
    Except Cause (Heap.Property × Instance) :=
  match object with
  | .inst inst =>
    match world.heap.property? inst name with
    | some property => .ok (property, inst)
    | none => .error (.undefinedProperty name [(world.heap.fieldsOf inst).names])
  | other => .error (.propertiesOf other.kind)

/-- The value of a property; a method is bound to the instance. -/
def World.take (world : World) : Heap.Property × Instance → Value × World
  | (.field value, _) => (value, world)
  | (.method method, inst) => world.bind method (.inst inst)

end Treewalk
