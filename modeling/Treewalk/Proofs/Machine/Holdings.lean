import Treewalk.Machine.Run

/-!
# What all values of a world have in common

If every value in the scopes, the fields and the frames has a property, then so has
every value that is read from there, and so have all of them after a value with the
property is put there. The property is any predicate on values; where it speaks of the
heap, it has to be carried over to the changed heap first (`World.Holds.mono`).

What `super` and a property of a value mean is found in several places;
`World.superMethod_eq_ok_iff` and `World.property_eq_ok` say in which.
-/

namespace Treewalk

open List

variable {name : String} {env : ScopeId} {value : Value} {args : List (Expr × Value)}

/-! ## What is found -/

/-- What `super` gives: a method of the class that `super` is bound to, for the receiver
that `this` is bound to. -/
theorem World.superMethod_eq_ok_iff {world : World} {method : Function}
    {receiver : Value} :
    world.superMethod name env = .ok (method, receiver) ↔
      ∃ superclass, world.heap.lookup? env "super" = some (.cls superclass) ∧
        world.heap.lookup? env "this" = some receiver ∧
        superclass.findMethod? name = some method := by
  unfold World.superMethod
  constructor
  · intro h
    split at h
    · rename_i superclass hsuper
      split at h
      · cases h
      · rename_i hthis
        split at h
        · cases h
        · rename_i hmethod
          cases h
          exact ⟨superclass, hsuper, hthis, hmethod⟩
    · cases h
  · rintro ⟨superclass, hsuper, hthis, hmethod⟩
    simp only [hsuper, hthis, hmethod]

/-- A property is a field of the instance, or a method that its class finds. -/
theorem World.property_eq_ok {world : World} {object : Value} {property : Heap.Property}
    {inst : Instance} (h : world.property object name = .ok (property, inst)) :
    object = .inst inst ∧
      ((∃ value, property = .field value ∧ (world.heap.fieldsOf inst).get? name =
        some value) ∨ ∃ method, property = .method method ∧
        inst.cls.findMethod? name = some method) := by
  cases object with
  | inst other =>
    simp only [World.property, Heap.property?] at h
    cases hfield : (world.heap.fieldsOf other).get? name with
    | some value =>
      simp only [hfield] at h
      cases h
      exact ⟨rfl, .inl ⟨value, rfl, hfield⟩⟩
    | none =>
      simp only [hfield] at h
      cases hmethod : other.cls.findMethod? name with
      | none =>
        simp only [hmethod] at h
        cases h
      | some method =>
        simp only [hmethod] at h
        cases h
        exact ⟨rfl, .inr ⟨method, rfl, hmethod⟩⟩
  | _ => cases h

private theorem Heap.makeMethods_heap (closure : ScopeId) (decls : List FunctionDecl) :
    ∀ (methods : Table Function) (heap : Heap),
      ∃ stamp, (Heap.makeMethods closure (methods, heap) decls).2 =
        { heap with nextStamp := stamp } := by
  induction decls with
  | nil => exact fun _ heap => ⟨heap.nextStamp, rfl⟩
  | cons decl rest ih =>
    intro methods heap
    obtain ⟨stamp, hstamp⟩ := ih (methods.put decl.name.node
      (heap.makeFunction decl closure (decl.name.node == Class.initializer)).1)
        heap.draw.2
    exact ⟨stamp, hstamp⟩

theorem Heap.makeClass_heap (heap : Heap) (name : String) (superclass : Option Class)
    (methods : List FunctionDecl) (closure : ScopeId) :
    ∃ stamp, (heap.makeClass name superclass methods closure).2 =
      { heap with nextStamp := stamp } := by
  obtain ⟨stamp, hstamp⟩ := makeMethods_heap closure methods [] heap
  exact ⟨stamp + 1, by simp only [Heap.makeClass, Heap.draw, hstamp]⟩

variable {P Q : Value → Prop}

/-! ## Tables -/

/-- Every value of a table has the property. -/
def Table.Holds (P : Value → Prop) (table : Table Value) : Prop :=
  ∀ entry ∈ table, P entry.2

namespace Table.Holds

variable {table : Table Value}

theorem nil : Table.Holds P [] :=
  fun _ hentry => absurd hentry not_mem_nil

theorem mono (h : Table.Holds P table) (hPQ : ∀ value, P value → Q value) :
    Table.Holds Q table :=
  fun entry hentry => hPQ _ (h entry hentry)

theorem get? (h : Table.Holds P table) (hfound : table.get? name = some value) :
    P value :=
  h _ (Table.mem_of_get? hfound)

theorem put (h : Table.Holds P table) (name : String) (hvalue : P value) :
    Table.Holds P (table.put name value) := by
  intro entry hentry
  rcases Table.mem_of_mem_put hentry with hold | rfl
  · exact h entry hold
  · exact hvalue

theorem putAll {entries : List (String × Value)} (h : Table.Holds P table)
    (hentries : ∀ entry ∈ entries, P entry.2) :
    Table.Holds P (table.putAll entries) := by
  induction entries generalizing table with
  | nil => exact h
  | cons entry rest ih =>
    exact ih (h.put entry.1 (hentries entry mem_cons_self)) fun other hother =>
      hentries other (mem_cons_of_mem _ hother)

/-- The arguments under the names of the parameters. -/
theorem zip (names : List String) {args : List Value} (hargs : ∀ arg ∈ args, P arg) :
    Table.Holds P (Table.putAll [] (names.zip args)) :=
  .putAll .nil fun entry hentry => hargs entry.2 (of_mem_zip hentry).2

/-- The arguments that are variables have the property if all arguments have it. -/
theorem namedArguments (hargs : ∀ arg ∈ args, P arg.2) :
    Table.Holds P (Machine.namedArguments args) := by
  intro entry hentry
  obtain ⟨⟨expr, value⟩, harg, hsome⟩ := mem_filterMap.1 hentry
  cases expr with
  | var span id name =>
    cases hsome
    exact hargs _ harg
  | _ => cases hsome

end Table.Holds

/-! ## The heap -/

/-- Every value in scopes and fields has the property. -/
structure Heap.Holds (P : Value → Prop) (heap : Heap) : Prop where
  scopes : ∀ scope ∈ heap.scopes, Table.Holds P scope.bindings
  fields : ∀ fields ∈ heap.fields, Table.Holds P fields

namespace Heap.Holds

variable {heap : Heap}

theorem mono (h : heap.Holds P) (hPQ : ∀ value, P value → Q value) : heap.Holds Q :=
  ⟨fun scope hscope => (h.scopes scope hscope).mono hPQ, fun fields hfields =>
    (h.fields fields hfields).mono hPQ⟩

theorem bindings (h : heap.Holds P) (env : ScopeId) :
    Table.Holds P (heap.bindings env) := by
  unfold Heap.bindings
  split
  · rename_i hscope
    exact h.scopes _ (Array.mem_of_getElem? hscope)
  · exact .nil

theorem fieldsOf (h : heap.Holds P) (inst : Instance) :
    Table.Holds P (heap.fieldsOf inst) := by
  unfold Heap.fieldsOf
  cases hfields : heap.fields[inst.address]? with
  | none => exact .nil
  | some fields => exact h.fields _ (Array.mem_of_getElem? hfields)

theorem lookup? (h : heap.Holds P) (hfound : heap.lookup? env name = some value) :
    P value := by
  obtain ⟨scope, -, hscope⟩ := exists_of_findSome?_eq_some hfound
  exact (h.bindings scope).get? hscope

theorem getAt (h : heap.Holds P) {distance : Nat}
    (hfound : heap.getAt env distance name = .ok value) : P value := by
  unfold Heap.getAt at hfound
  split at hfound
  · cases hfound
  · split at hfound
    · rename_i hbound
      cases hfound
      exact (h.bindings _).get? hbound
    · cases hfound

theorem makeChild (h : heap.Holds P) (env : ScopeId) {table : Table Value}
    (htable : Table.Holds P table) :
    (heap.makeChild env table).2.Holds P := by
  refine ⟨fun scope hscope => ?_, h.fields⟩
  rcases Array.mem_push.1 hscope with hold | rfl
  · exact h.scopes scope hold
  · exact htable

theorem makeInstance (h : heap.Holds P) (cls : Class) :
    (heap.makeInstance cls).2.Holds P := by
  refine ⟨h.scopes, fun fields hfields => ?_⟩
  rcases Array.mem_push.1 hfields with hold | rfl
  · exact h.fields fields hold
  · exact .nil

theorem makeClass (h : heap.Holds P) (name : String) (superclass : Option Class)
    (methods : List FunctionDecl) (closure : ScopeId) :
    (heap.makeClass name superclass methods closure).2.Holds P := by
  obtain ⟨stamp, hstamp⟩ := heap.makeClass_heap name superclass methods closure
  rw [hstamp]
  exact ⟨h.scopes, h.fields⟩

theorem define (h : heap.Holds P) (env : ScopeId) (name : String) (hvalue : P value) :
    (heap.define env name value).Holds P := by
  refine ⟨fun scope hscope => ?_, h.fields⟩
  obtain ⟨i, hi⟩ := Array.getElem?_of_mem hscope
  simp only [Heap.define, Array.getElem?_modify] at hi
  split at hi
  · obtain ⟨old, hold, rfl⟩ := Option.map_eq_some_iff.1 hi
    exact (h.scopes old (Array.mem_of_getElem? hold)).put name hvalue
  · exact h.scopes scope (Array.mem_of_getElem? hi)

theorem setField (h : heap.Holds P) (inst : Instance) (name : String)
    (hvalue : P value) :
    (heap.setField inst name value).Holds P := by
  refine ⟨h.scopes, fun fields hfields => ?_⟩
  obtain ⟨i, hi⟩ := Array.getElem?_of_mem hfields
  simp only [Heap.setField, Array.getElem?_modify] at hi
  split at hi
  · obtain ⟨old, hold, rfl⟩ := Option.map_eq_some_iff.1 hi
    exact (h.fields old (Array.mem_of_getElem? hold)).put name hvalue
  · exact h.fields fields (Array.mem_of_getElem? hi)

end Heap.Holds

/-! ## Worlds -/

/-- Every value in scopes, fields and frames has the property. -/
structure World.Holds (P : Value → Prop) (world : World) : Prop where
  heap : world.heap.Holds P
  frames : ∀ frame ∈ world.frames.list, Table.Holds P frame.values

namespace World.Holds

variable {world : World}

theorem mono (h : world.Holds P) (hPQ : ∀ value, P value → Q value) : world.Holds Q :=
  ⟨h.heap.mono hPQ, fun frame hframe => (h.frames frame hframe).mono hPQ⟩

/-- Before any run there are capabilities only. -/
theorem start {natives : List Native}
    (h : ∀ native ∈ natives, P (.callable (.native native))) :
    (World.start (.start natives)).Holds P := by
  refine ⟨⟨fun scope hscope => ?_, fun fields hfields => ?_⟩, fun frame hframe => ?_⟩
  · obtain rfl := Array.mem_singleton.1 hscope
    exact forall_mem_map.2 h
  · exact absurd hfields (Array.not_mem_empty fields)
  · obtain rfl := mem_singleton.1 hframe
    exact .nil

theorem push (h : world.Holds P) (name : String) :
    World.Holds P ⟨world.heap, world.frames.push name, world.output⟩ := by
  refine ⟨h.heap, fun frame hframe => ?_⟩
  rcases mem_cons.1 hframe with rfl | hframe
  · exact .nil
  · exact h.frames frame hframe

theorem pop (h : world.Holds P) :
    World.Holds P ⟨world.heap, world.frames.pop, world.output⟩ :=
  ⟨h.heap, fun frame hframe => h.frames frame (mem_of_mem_tail hframe)⟩

theorem modifyTop (h : world.Holds P) {f : Table Value → Table Value}
    (hf : ∀ table, Table.Holds P table → Table.Holds P (f table)) :
    World.Holds P ⟨world.heap, world.frames.modifyTop f, world.output⟩ := by
  obtain ⟨heap, ⟨list, size, hsize⟩, output⟩ := world
  refine ⟨h.heap, ?_⟩
  cases list with
  | nil => exact h.frames
  | cons top rest =>
    have hframes := forall_mem_cons.1 h.frames
    exact forall_mem_cons.2 ⟨hf top.values hframes.1, hframes.2⟩

theorem add (h : world.Holds P) (name : String) (hvalue : P value) :
    World.Holds P ⟨world.heap, world.frames.add name value, world.output⟩ :=
  h.modifyTop fun _ htable => htable.put name hvalue

theorem addNamed (h : world.Holds P) (hargs : ∀ arg ∈ args, P arg.2) :
    World.Holds P ⟨world.heap, world.frames.addAll (Machine.namedArguments args),
      world.output⟩ :=
  h.modifyTop fun _ htable => htable.putAll (Table.Holds.namedArguments hargs)

theorem readGlobal (h : world.Holds P)
    (hvalue : world.readGlobal name env = .ok value) : P value := by
  unfold World.readGlobal at hvalue
  split at hvalue
  · rename_i hfound
    cases hvalue
    exact (h.heap.bindings globalScope).get? hfound
  · cases hvalue

theorem read (h : world.Holds P) {ctx : Context} {id : NodeId}
    (hvalue : ctx.read world name id env = .ok value) :
    P value := by
  unfold Context.read at hvalue
  split at hvalue
  · rename_i hframe
    cases hvalue
    unfold Context.frameValue? at hframe
    split at hframe
    · obtain ⟨frame, htop, hfound⟩ := Option.bind_eq_some_iff.1 hframe
      exact (h.frames frame (mem_of_mem_head? htop)).get? hfound
    · cases hframe
  · split at hvalue
    · exact h.heap.getAt hvalue
    · exact h.readGlobal hvalue

end World.Holds

end Treewalk
