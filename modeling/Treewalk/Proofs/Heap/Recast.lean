import Treewalk.Machine.Variable
import Treewalk.Proofs.Tree.Recast
import Treewalk.Value.Operator

/-!
# Values with trees written anew

Functions hold their trees, so a recast of trees goes through values, scopes, fields and
frames. No operation on values or on the heap looks into a tree: each of them commutes
with the recast, and what can be seen of a value (its kind, its text, its truth) does
not change.
-/

namespace Treewalk

variable (c : Recast)

/-! ## Tables -/

namespace Table

variable {α β : Type} (f : α → β)

/-- The table with its values changed. -/
def mapValues (table : Table α) : Table β :=
  table.map fun entry => (entry.1, f entry.2)

@[simp] theorem mapValues_nil : mapValues f [] = [] :=
  rfl

@[simp] theorem mapValues_cons (name : String) (value : α) (table : Table α) :
    mapValues f ((name, value) :: table) = (name, f value) :: mapValues f table :=
  rfl

@[simp] theorem get?_mapValues (name : String) (table : Table α) :
    get? name (table.mapValues f) = (get? name table).map f := by
  induction table with
  | nil => rfl
  | cons entry table ih =>
    obtain ⟨key, value⟩ := entry
    by_cases h : key = name <;> simp [get?, h, ih]

@[simp] theorem has_mapValues (name : String) (table : Table α) :
    has name (table.mapValues f) = has name table := by
  simp [has]

@[simp] theorem put_mapValues (name : String) (value : α) (table : Table α) :
    put name (f value) (table.mapValues f) = (put name value table).mapValues f := by
  induction table with
  | nil => rfl
  | cons entry table ih =>
    obtain ⟨key, old⟩ := entry
    by_cases h : key = name <;> simp [put, h, ih]

@[simp] theorem putAll_mapValues (table : Table α) (entries : List (String × α)) :
    putAll (table.mapValues f) (mapValues f entries) =
      (putAll table entries).mapValues f := by
  induction entries generalizing table with
  | nil => rfl
  | cons entry entries ih =>
    obtain ⟨key, value⟩ := entry
    have hrest := ih (put key value table)
    rw [← put_mapValues] at hrest
    exact hrest

@[simp] theorem names_mapValues (table : Table α) :
    names (table.mapValues f) = names table := by
  simp [names, mapValues]

end Table

/-! ## Values -/

/-- The function with its tree written anew. -/
def Function.recast (function : Function) : Function :=
  { function with decl := function.decl.recast c }

/-- The class with the trees of its methods written anew. -/
def Class.recast : Class → Class
  | mk stamp name none methods =>
    mk stamp name none (methods.mapValues (Function.recast c))
  | mk stamp name (some superclass) methods =>
    mk stamp name (some superclass.recast) (methods.mapValues (Function.recast c))

/-- The callable with its trees written anew. -/
def Callable.recast : Callable → Callable
  | function f => function (f.recast c)
  | cls k => cls (k.recast c)
  | native n => native n

/-- The same instance, of the class written anew. -/
def Instance.recast (inst : Instance) : Instance :=
  ⟨inst.address, inst.cls.recast c⟩

/-- The value with its trees written anew. -/
def Value.recast : Value → Value
  | number n => number n
  | string s => string s
  | bool b => bool b
  | callable f => callable (f.recast c)
  | cls k => cls (k.recast c)
  | inst i => inst (i.recast c)
  | fault stamp f => fault stamp f
  | nothing => nothing

@[simp] theorem Function.name_recast (function : Function) :
    (function.recast c).name = function.name := by
  simp [Function.name, Function.recast]

@[simp] theorem Function.arity_recast (function : Function) :
    (function.recast c).arity = function.arity := by
  simp [Function.arity, Function.recast]

namespace Class

@[simp] theorem name_recast (cls : Class) : (cls.recast c).name = cls.name := by
  obtain ⟨stamp, name, _ | superclass, methods⟩ := cls <;> rfl

@[simp] theorem stamp_recast (cls : Class) : (cls.recast c).stamp = cls.stamp := by
  obtain ⟨stamp, name, _ | superclass, methods⟩ := cls <;> rfl

@[simp] theorem findMethod?_recast (name : String) : ∀ cls : Class,
    (cls.recast c).findMethod? name = (cls.findMethod? name).map (Function.recast c)
  | mk _ _ none methods => by simp only [recast, findMethod?, Table.get?_mapValues]
  | mk _ _ (some superclass) methods => by
    simp only [recast, findMethod?, Table.get?_mapValues]
    cases methods.get? name with
    | some method => rfl
    | none => exact findMethod?_recast name superclass

@[simp] theorem arity_recast (cls : Class) : (cls.recast c).arity = cls.arity := by
  unfold arity
  rw [findMethod?_recast]
  cases cls.findMethod? initializer <;> simp

end Class

namespace Callable

variable (callable : Callable)

@[simp] theorem name_recast : (callable.recast c).name = callable.name := by
  cases callable <;> simp [recast, name]

@[simp] theorem arity_recast : (callable.recast c).arity = callable.arity := by
  cases callable <;> simp [recast, arity]

private theorem same_recast (other : Callable) :
    (callable.recast c).same (other.recast c) = callable.same other := by
  cases callable <;> cases other <;> simp [recast, same, Function.recast]

end Callable

namespace Value

variable (value : Value)

@[simp] theorem kind_recast : (value.recast c).kind = value.kind := by
  cases value <;> rfl

@[simp] theorem isTruthy_recast : (value.recast c).isTruthy = value.isTruthy := by
  cases value <;> rfl

@[simp] theorem isPrintable_recast :
    (value.recast c).isPrintable = value.isPrintable := by
  cases value <;> rfl

@[simp] theorem callable?_recast :
    (value.recast c).callable? = value.callable?.map (Callable.recast c) := by
  cases value <;> rfl

@[simp] theorem text_recast : (value.recast c).text = value.text := by
  cases value <;> simp [recast, text, Callable.text, Instance.recast]

@[simp] theorem recast_ofLiteral (literal : Literal) :
    (ofLiteral literal).recast c = ofLiteral literal := by
  cases literal <;> rfl

private theorem same_recast (other : Value) :
    (value.recast c).same (other.recast c) = value.same other := by
  cases value <;> cases other <;>
    simp [recast, same, Callable.same_recast, Instance.recast]

/-! ### Operators -/

private theorem arithmetic_recast (op : Arithmetic) (left right : Value) :
    arithmetic op (left.recast c) (right.recast c) =
      (arithmetic op left right).map (recast c) := by
  have hnumbers : ∀ a b, arithmeticNumbers op a b =
      (arithmeticNumbers op a b).map (recast c) := by
    intro a b
    cases op with
    | div => by_cases hb : b = 0 <;> simp [arithmeticNumbers, hb, Except.map, recast]
    | _ => rfl
  have hstrings : ∀ a b, arithmeticStrings op a b =
      (arithmeticStrings op a b).map (recast c) := by
    intro a b
    cases op <;> rfl
  cases left <;> cases right <;> first | rfl | exact hnumbers _ _ | exact hstrings _ _

private theorem order_recast (left right : Value) :
    order (left.recast c) (right.recast c) = order left right := by
  cases left <;> cases right <;> rfl

private theorem equality_recast (left right : Value) :
    equality (left.recast c) (right.recast c) = equality left right := by
  simp [equality, isComparable, same_recast]

theorem map_bool_recast {α : Type} (result : Except Cause α) (f : α → Bool) :
    (result.map fun a => bool (f a)).map (recast c) = result.map fun a =>
      bool (f a) := by
  cases result <;> rfl

theorem binary_recast (op : BinaryOp) (left right : Value) :
    binary op (left.recast c) (right.recast c) =
      (binary op left right).map (recast c) := by
  cases op <;> simp only [binary, arithmetic_recast, order_recast, equality_recast] <;>
    exact (map_bool_recast c _ _).symm

theorem unary_recast (op : UnaryOp) :
    unary op (value.recast c) = (unary op value).map (recast c) := by
  cases op <;> cases value <;> rfl

end Value

/-! ## The heap -/

/-- The scope with its values recast. -/
def Scope.recast (scope : Scope) : Scope :=
  ⟨scope.outer, scope.bindings.mapValues (Value.recast c)⟩

/-- The property with its trees written anew. -/
def Heap.Property.recast : Heap.Property → Heap.Property
  | field value => field (value.recast c)
  | method function => method (function.recast c)

private theorem map_modify {α β : Type} {g : α → β} {f : α → α} {f' : β → β}
    (h : ∀ a, g (f a) = f' (g a)) (array : Array α) (i : Nat) :
    (array.map g).modify i f' = (array.modify i f).map g := by
  refine Array.ext_getElem? fun j => ?_
  simp only [Array.getElem?_modify, Array.getElem?_map]
  by_cases hj : i = j
  · cases array[j]? <;> simp [hj, h]
  · simp [hj]

namespace Heap

/-- The heap with all its values recast. -/
def recast (heap : Heap) : Heap where
  scopes := heap.scopes.map (Scope.recast c)
  fields := heap.fields.map (Table.mapValues (Value.recast c))
  nextStamp := heap.nextStamp

variable (heap : Heap) (env : ScopeId)

@[simp] theorem chain_recast : (heap.recast c).chain env = heap.chain env := by
  simp only [chain, recast, Array.getElem?_map]
  cases heap.scopes[env]? <;> rfl

@[simp] theorem bindings_recast :
    (heap.recast c).bindings env = (heap.bindings env).mapValues (Value.recast c) := by
  simp only [bindings, recast, Array.getElem?_map]
  cases heap.scopes[env]? <;> rfl

@[simp] theorem draw_recast :
    (heap.recast c).draw = (heap.draw.1, heap.draw.2.recast c) :=
  rfl

@[simp] theorem makeScope_recast (outer : List ScopeId) (bindings : Table Value) :
    (heap.recast c).makeScope outer (bindings.mapValues (Value.recast c)) =
      ((heap.makeScope outer bindings).1,
        (heap.makeScope outer bindings).2.recast c) := by
  simp [makeScope, recast, Scope.recast]

@[simp] theorem makeChild_recast (bindings : Table Value) :
    (heap.recast c).makeChild env (bindings.mapValues (Value.recast c)) =
      ((heap.makeChild env bindings).1, (heap.makeChild env bindings).2.recast c) := by
  simp [makeChild]

@[simp] theorem makeInstance_recast (cls : Class) :
    (heap.recast c).makeInstance (cls.recast c) =
      ((heap.makeInstance cls).1.recast c, (heap.makeInstance cls).2.recast c) := by
  simp [makeInstance, recast, Instance.recast]

@[simp] theorem define_recast (name : String) (value : Value) :
    (heap.recast c).define env name (value.recast c) =
      (heap.define env name value).recast c := by
  simp only [define, recast, Heap.mk.injEq, and_true]
  exact map_modify (fun scope => by simp [Scope.recast]) _ _

@[simp] theorem lookup?_recast (name : String) :
    (heap.recast c).lookup? env name =
      (heap.lookup? env name).map (Value.recast c) := by
  simp [lookup?, List.map_findSome?, Function.comp_def]

@[simp] theorem ancestor_recast (distance : Nat) :
    (heap.recast c).ancestor env distance = heap.ancestor env distance := by
  simp [ancestor]

@[simp] theorem getAt_recast (distance : Nat) (name : String) :
    (heap.recast c).getAt env distance name =
      (heap.getAt env distance name).map (Value.recast c) := by
  simp only [getAt, ancestor_recast, bindings_recast, Table.get?_mapValues]
  cases heap.ancestor env distance with
  | error left => rfl
  | ok scope =>
    simp only
    cases (heap.bindings scope).get? name <;> rfl

@[simp] theorem slotAt_recast (distance : Nat) (name : String) :
    (heap.recast c).slotAt env distance name = heap.slotAt env distance name := by
  simp [slotAt]

@[simp] theorem visibleTables_recast :
    (heap.recast c).visibleTables env = heap.visibleTables env := by
  simp [visibleTables]

@[simp] theorem fieldsOf_recast (inst : Instance) :
    (heap.recast c).fieldsOf (inst.recast c) =
      (heap.fieldsOf inst).mapValues (Value.recast c) := by
  simp only [fieldsOf, recast, Instance.recast, Array.getElem?_map]
  cases heap.fields[inst.address]? <;> rfl

@[simp] theorem setField_recast (inst : Instance) (name : String) (value : Value) :
    (heap.recast c).setField (inst.recast c) name (value.recast c) =
      (heap.setField inst name value).recast c := by
  simp only [setField, recast, Heap.mk.injEq, and_true, true_and]
  exact map_modify (fun fields => by simp) _ _

@[simp] theorem makeFunction_recast (decl : FunctionDecl) (closure : ScopeId)
    (isInit : Bool) :
    (heap.recast c).makeFunction (decl.recast c) closure isInit =
      ((heap.makeFunction decl closure isInit).1.recast c,
        (heap.makeFunction decl closure isInit).2.recast c) :=
  rfl

private theorem makeMethods_recast (closure : ScopeId) (decls : List FunctionDecl)
    (methods : Table Function) (heap : Heap) :
    makeMethods closure (methods.mapValues (Function.recast c), heap.recast c)
        (decls.map (FunctionDecl.recast c)) =
      ((makeMethods closure (methods, heap) decls).1.mapValues (Function.recast c),
        (makeMethods closure (methods, heap) decls).2.recast c) := by
  induction decls generalizing methods heap with
  | nil => rfl
  | cons decl decls ih =>
    simp only [List.map_cons, makeMethods, makeFunction_recast,
      FunctionDecl.name_recast, Table.put_mapValues, ih]

@[simp] theorem makeClass_recast (name : String) (superclass : Option Class)
    (methods : List FunctionDecl) (closure : ScopeId) :
    (heap.recast c).makeClass name (superclass.map (Class.recast c))
        (methods.map (FunctionDecl.recast c)) closure =
      ((heap.makeClass name superclass methods closure).1.recast c,
        (heap.makeClass name superclass methods closure).2.recast c) := by
  have hmethods := makeMethods_recast c closure methods [] heap
  rw [Table.mapValues_nil] at hmethods
  simp only [makeClass, hmethods, draw_recast]
  cases superclass <;> rfl

@[simp] theorem bind_recast (method : Function) (receiver : Value) :
    (heap.recast c).bind (method.recast c) (receiver.recast c) =
      ((heap.bind method receiver).1.recast c,
        (heap.bind method receiver).2.recast c) := by
  have hchild := heap.makeChild_recast c method.closure [("this", receiver)]
  simp only [Table.mapValues_cons, Table.mapValues_nil] at hchild
  simp only [bind, Function.recast, hchild, makeFunction_recast]

@[simp] theorem property?_recast (inst : Instance) (name : String) :
    (heap.recast c).property? (inst.recast c) name =
      (heap.property? inst name).map (Property.recast c) := by
  simp only [property?, fieldsOf_recast, Table.get?_mapValues]
  cases (heap.fieldsOf inst).get? name with
  | some value => rfl
  | none =>
    simp only [Option.map_none, Instance.recast, Class.findMethod?_recast,
      Option.map_map]
    rfl

end Heap

/-! ## Frames -/

/-- The frame with its values recast. -/
def Frame.recast (frame : Frame) : Frame :=
  ⟨frame.name, frame.values.mapValues (Value.recast c)⟩

namespace Frames

/-- The frames with their values recast. -/
def recast (frames : Frames) : Frames :=
  ⟨frames.list.map (Frame.recast c),
    frames.depth, by rw [List.length_map, frames.depth_eq]⟩

variable (frames : Frames)

@[simp] theorem depth_recast : (frames.recast c).depth = frames.depth :=
  rfl

@[simp] theorem pop_recast : (frames.recast c).pop = frames.pop.recast c := by
  obtain ⟨list, depth, h⟩ := frames
  cases list <;> rfl

@[simp] theorem get?_recast (name : String) :
    (frames.recast c).get? name = (frames.get? name).map (Value.recast c) := by
  obtain ⟨list, depth, h⟩ := frames
  cases list <;> simp [get?, top?, recast, Frame.recast]

@[simp] theorem add_recast (name : String) (value : Value) :
    (frames.recast c).add name (value.recast c) = (frames.add name value).recast c := by
  obtain ⟨list, depth, h⟩ := frames
  cases list <;> simp [add, modifyTop, recast, Frame.recast]

@[simp] theorem addAll_recast (entries : Table Value) :
    (frames.recast c).addAll (entries.mapValues (Value.recast c)) =
      (frames.addAll entries).recast c := by
  obtain ⟨list, depth, h⟩ := frames
  cases list <;> simp [addAll, modifyTop, recast, Frame.recast]

end Frames

/-! ## Renamings -/

/-- The value with the nodes of its trees renamed. -/
def Value.rename (ρ : NodeId → NodeId) (value : Value) : Value :=
  value.recast (.ofRenaming ρ)

/-- The heap with the nodes of all its trees renamed. -/
def Heap.rename (ρ : NodeId → NodeId) (heap : Heap) : Heap :=
  heap.recast (.ofRenaming ρ)

end Treewalk
