import Treewalk.Proofs.Machine.Holdings
import Treewalk.Proofs.Tree.Parts
import Treewalk.Proofs.Value.Operator
import Treewalk.Scope.Notes

/-!
# What a state holds

A state of the machine holds values (in scopes, fields and frames, in its control and in
what waits), code that is still to run, requests to capabilities, declarations and
assignments that are still to be made, and the reason of the error that it hands on. All
of it is listed by `Machine.contents`.

A `Stock` says what a run may hold. What is read from scopes, fields and frames that a
stock covers is in the stock, and what is put there leaves them covered (`Stock.Keeps`).
That whole runs stay within a stock is in `Treewalk.Proofs.Machine.Supply`.
-/

namespace Treewalk

open List

variable {world : World} {value : Value} {cause : Cause} {env : ScopeId} {name : String}
  {heap : Heap}

/-! ## Contents -/

/-- One thing that a state holds. -/
inductive Content where
  /-- A value. -/
  | value (value : Value)
  /-- An expression that may be evaluated. -/
  | code (expr : Expr)
  /-- The name of a capability that is asked for. -/
  | capability (name : String)
  /-- A declaration to be made in a scope. -/
  | declares (env : ScopeId) (name : String)
  /-- An assignment to be made. -/
  | assigns (name : String)
  /-- The reason of an error that is handed on. -/
  | cause (cause : Cause)

/-- The functions that a class carries, its own and those of the classes that it
inherits from. -/
def Class.functions : Class → List Function
  | .mk _ _ none methods => methods.map (·.2)
  | .mk _ _ (some superclass) methods => methods.map (·.2) ++ superclass.functions

/-- The functions that a value carries. -/
def Value.functions : Value → List Function
  | .callable (.function f) => [f]
  | .callable (.cls c) => c.functions
  | .cls c => c.functions
  | .inst i => i.cls.functions
  | _ => []

/-- The values of a table. -/
def Table.contents (table : Table Value) : List Content :=
  table.map fun entry => .value entry.2

/-- The values in scopes and fields. -/
def Heap.contents (heap : Heap) : List Content :=
  heap.scopes.toList.flatMap (fun scope => Table.contents scope.bindings) ++
    heap.fields.toList.flatMap Table.contents

variable {content : Content}

theorem Heap.value_of_mem_contents (h : content ∈ heap.contents) :
    ∃ value, content = .value value := by
  have htable : ∀ {table : Table Value}, content ∈ Table.contents table → ∃ value,
      content = .value value := by
    intro table hmem
    obtain ⟨entry, -, rfl⟩ := mem_map.1 hmem
    exact ⟨entry.2, rfl⟩
  rcases mem_append.1 h with hscope | hfields
  · obtain ⟨scope, -, hmem⟩ := mem_flatMap.1 hscope
    exact htable hmem
  · obtain ⟨fields, -, hmem⟩ := mem_flatMap.1 hfields
    exact htable hmem

/-- At first there are only the capabilities. -/
theorem Heap.native_of_mem_contents_start {natives : List Native}
    (h : content ∈ (Heap.start natives).contents) :
    ∃ native ∈ natives, content = .value (.callable (.native native)) := by
  have hcontents : (Heap.start natives).contents =
      natives.map fun native => .value (.callable (.native native)) := by
    simp [Heap.start, Heap.makeScope, Heap.empty, Heap.contents, Table.contents]
  rw [hcontents] at h
  obtain ⟨native, hnative, rfl⟩ := mem_map.1 h
  exact ⟨native, hnative, rfl⟩

/-- The values in frames. -/
def Frames.contents (frames : Frames) : List Content :=
  frames.list.flatMap fun frame => Table.contents frame.values

/-- The values that the heap and the frames hold. -/
def World.contents (world : World) : List Content :=
  world.heap.contents ++ world.frames.contents

/-- The expressions of a statement and the names that it declares in its scope. -/
def Stmt.contents (env : ScopeId) (stmt : Stmt) : List Content :=
  stmt.parts.map .code ++ stmt.declared.map (.declares env)

/-- What statements hold, from first to last. -/
def Stmt.listContents (env : ScopeId) (body : List Stmt) : List Content :=
  body.flatMap (Stmt.contents env)

/-- What a call in preparation holds. -/
def Call.contents (call : Call) : List Content :=
  match call.callee with
  | .found value => [.value value]
  | .native => [.capability call.name]
  | .named _ _ => []

/-- What the machine is about to work with. -/
def Control.contents : Control → List Content
  | .eval expr _ => expr.parts.map .code
  | .exec stmt env => stmt.contents env
  | .native name args => .capability name :: args.map .value
  | .value v => [.value v]
  | .flow (.ret v) => [.value v]
  | .flow _ => []
  | .fail error => [.cause error.cause]

/-- What an entry keeps until its outcome is there. -/
def Pending.contents : Pending → List Content
  | .assign _ _ name _ => [.assigns name]
  | .binaryLeft _ _ right _ => right.parts.map .code
  | .binaryRight _ left _ => [.value left]
  | .logical _ right _ => right.parts.map .code
  | .setObject _ _ value _ => value.parts.map .code
  | .setField inst _ => [.value (.inst inst)]
  | .receiver _ _ _ args _ => (Expr.listParts args).map .code
  | .argument call done _ rest =>
    call.contents ++ (done.map fun arg => .value arg.2) ++
      (Expr.listParts rest).map .code
  | .result function => [.value (.callable (.function function))]
  | .construct inst => [.value (.inst inst)]
  | .seq rest env => Stmt.listContents env rest
  | .declare name env => [.declares env name]
  | .branch onTrue none env => onTrue.contents env
  | .branch onTrue (some onFalse) env => onTrue.contents env ++ onFalse.contents env
  | .loopTest cond body env => cond.parts.map .code ++ body.contents env
  | .loopBody cond body env => cond.parts.map .code ++ body.contents env
  | .superclass _ decl env => .declares env decl.name.node :: decl.parts.map .code
  | _ => []

/-- All that a state holds. -/
def Machine.contents (m : Machine) : List Content :=
  m.world.contents ++ (m.control.contents ++ m.pending.flatMap Pending.contents)

section

variable {H : Content → Prop}

private theorem Table.forall_contents {table : Table Value} :
    (∀ content ∈ Table.contents table, H content) ↔
      Table.Holds (fun value => H (.value value)) table :=
  forall_mem_map

private theorem Heap.forall_contents :
    (∀ content ∈ heap.contents, H content) ↔ heap.Holds fun value =>
      H (.value value) := by
  simp only [Heap.contents, forall_mem_append, forall_mem_flatMap,
    Table.forall_contents, Array.mem_toList_iff]
  exact ⟨fun h => ⟨h.1, h.2⟩, fun h => ⟨h.scopes, h.fields⟩⟩

theorem World.forall_contents {world : World} :
    (∀ content ∈ world.contents, H content) ↔ world.Holds fun value =>
      H (.value value) := by
  simp only [World.contents, Frames.contents, forall_mem_append, forall_mem_flatMap,
    Table.forall_contents, Heap.forall_contents]
  exact ⟨fun h => ⟨h.1, h.2⟩, fun h => ⟨h.heap, h.frames⟩⟩

end

/-- Every value in scopes and fields is among the contents. -/
theorem Heap.holds_contents (heap : Heap) :
    heap.Holds fun value => .value value ∈ heap.contents :=
  Heap.forall_contents.1 fun _ hmem => hmem

/-- What all values of a world have in common, the values among its contents have. -/
theorem World.Holds.of_mem_contents {P : Value → Prop} (h : world.Holds P)
    (hmem : .value value ∈ world.contents) :
    P value := by
  have hall : ∀ content ∈ world.contents, ∀ value, content = .value value → P value :=
    World.forall_contents.2
      (h.mono fun _ hvalue _ heq => Content.value.inj heq ▸ hvalue)
  exact hall _ hmem value rfl

/-! ## Lookups that fail

No lookup fails because of a capability.
-/

/-- Whether an error is about the fault of a capability. -/
def Cause.isFault (cause : Cause) : Bool :=
  cause.kind == .nativeFault

theorem Cause.isFault_of_kind {kind : ErrorKind} (h : cause.kind = kind)
    (hkind : (kind == .nativeFault) = false) :
    cause.isFault = false := by
  rw [isFault, h, hkind]

theorem Heap.kind_of_getAt {distance : Nat}
    (h : heap.getAt env distance name = .error cause) :
    cause.kind = .bindingError := by
  unfold Heap.getAt at h
  split at h
  · cases h
    rfl
  · split at h <;> cases h
    rfl

theorem World.kind_of_readGlobal (h : world.readGlobal name env = .error cause) :
    cause.kind = .bindingError := by
  unfold World.readGlobal at h
  split at h <;> cases h
  rfl

theorem Context.kind_of_read {ctx : Context} {id : NodeId}
    (h : ctx.read world name id env = .error cause) :
    cause.kind = .bindingError := by
  unfold Context.read at h
  split at h
  · cases h
  · split at h
    · exact Heap.kind_of_getAt h
    · exact World.kind_of_readGlobal h

theorem Context.kind_of_slots {ctx : Context} {id : NodeId}
    (h : ctx.slots world name id env = .error cause) :
    cause.kind = .bindingError := by
  have hscope : ctx.scopeSlot world name id env = .error cause := by
    unfold Context.slots at h
    simp only at h
    split at h
    · cases h
    · rename_i hscope
      split at h <;> cases h
      exact hscope
  unfold Context.scopeSlot at hscope
  split at hscope
  · unfold Heap.slotAt at hscope
    split at hscope
    · cases hscope
      rfl
    · split at hscope <;> cases hscope
      rfl
  · exact World.kind_of_readGlobal (Value.error_of_map hscope)

theorem World.kind_of_superMethod (h : world.superMethod name env = .error cause) :
    cause.kind = .bindingError := by
  unfold World.superMethod at h
  split at h
  · split at h
    · cases h
      rfl
    · split at h <;> cases h
      rfl
  · cases h
    rfl

theorem World.isFault_of_property {object : Value}
    (h : world.property object name = .error cause) :
    cause.isFault = false := by
  unfold World.property at h
  split at h
  · split at h <;> cases h
    rfl
  · cases h
    rfl

/-! ## Stocks -/

/-- What a run may hold. -/
structure Stock where
  /-- The expressions of its code. -/
  code : Expr → Prop
  /-- The names of the capabilities that it holds or asks for. -/
  capability : String → Prop
  /-- The number of scopes, the first ones made, in which it may not declare whatever it
  likes. -/
  ground : Nat
  /-- The names that it may declare in these. -/
  declares : String → Prop
  /-- The names that it may assign. -/
  assigns : String → Prop
  /-- Whether it may hold faults. -/
  fault : Prop
  /-- Whether it may fail because of one. -/
  failure : Prop

namespace Stock

variable (stock : Stock)

/-- A value may be held: so may the code that it carries, the capability that it is or
the fault. -/
structure HasValue (value : Value) : Prop where
  functions : ∀ function ∈ value.functions, ∀ expr ∈ function.decl.parts,
    stock.code expr
  capability : ∀ native, value = .callable (.native native) →
    stock.capability native.name
  fault : value.kind = .fault → stock.fault

/-- A thing may be held. -/
def Has : Content → Prop
  | .value value => stock.HasValue value
  | .code expr => stock.code expr
  | .capability name => stock.capability name
  | .declares env name => env < stock.ground → stock.declares name
  | .assigns name => stock.assigns name
  | .cause cause => cause.isFault = true → stock.failure

/-- All of the things may be held. -/
def Covers (contents : List Content) : Prop :=
  ∀ content ∈ contents, stock.Has content

/-- Scopes, fields and frames hold only what the stock has, and the scopes that it is
particular about are there. -/
structure Keeps (world : World) : Prop where
  heap : stock.Covers world.heap.contents
  frames : stock.Covers world.frames.contents
  ground : stock.ground ≤ world.heap.scopes.size

/-- All that the state holds is from the stock. -/
structure Supplies (m : Machine) : Prop where
  world : stock.Keeps m.world
  control : stock.Covers m.control.contents
  pending : stock.Covers (m.pending.flatMap Pending.contents)

/-- In this context the stock has what a run comes to by itself: faults, as values or as
errors, the capabilities of marked calls, and the targets of assignments. -/
structure Suits (ctx : Context) : Prop where
  fault : ctx.settings.faultPolicy = .value → stock.fault
  failure : ctx.settings.faultPolicy = .error → stock.failure
  marked : ∀ span id access calleeId name args,
    stock.code (.call span id (.var access calleeId name) args) →
    ctx.resolution.isNativeCall id = true → stock.capability name
  assigns : ∀ span id name value, stock.code (.assign span id name value) →
    stock.assigns name

variable {stock}

@[simp] theorem covers_nil : stock.Covers [] ↔ True := by
  simp [Covers]

@[simp] theorem covers_cons {rest : List Content} :
    stock.Covers (content :: rest) ↔ stock.Has content ∧ stock.Covers rest := by
  simp [Covers]

@[simp] theorem covers_append {contents contents' : List Content} :
    stock.Covers (contents ++ contents') ↔ stock.Covers contents ∧
      stock.Covers contents' := by
  simp [Covers, or_imp, forall_and]

theorem covers_flatMap {α : Type} {f : α → List Content} {entries : List α} :
    stock.Covers (entries.flatMap f) ↔ ∀ entry ∈ entries, stock.Covers (f entry) := by
  simp only [Covers, mem_flatMap]
  exact ⟨fun h entry hentry content hmem => h content ⟨entry, hentry, hmem⟩,
    fun h content ⟨entry, hentry, hmem⟩ => h entry hentry content hmem⟩

private theorem covers_map {α : Type} {f : α → Content} {entries : List α} :
    stock.Covers (entries.map f) ↔ ∀ entry ∈ entries, stock.Has (f entry) :=
  forall_mem_map

theorem covers_code {exprs : List Expr} :
    stock.Covers (exprs.map .code) ↔ ∀ expr ∈ exprs, stock.code expr :=
  covers_map

/-- An expression that may be evaluated is itself in stock. -/
theorem Covers.self {expr : Expr} (h : stock.Covers (expr.parts.map .code)) :
    stock.code expr :=
  covers_code.1 h expr expr.self_mem_parts

/-! ## Values -/

/-- What an operator, a capability or a literal gives carries no code and is no
fault. -/
theorem hasValue_of_isComparable (h : value.isComparable = true) :
    stock.HasValue value := by
  cases value with
  | callable _ => cases h
  | cls _ => cases h
  | inst _ => cases h
  | fault _ _ => cases h
  | _ => exact ⟨fun _ hmem => (nomatch hmem), nofun, nofun⟩

theorem hasValue_function {function : Function} :
    stock.HasValue (.callable (.function function)) ↔
      ∀ expr ∈ function.decl.parts, stock.code expr := by
  refine ⟨fun h => h.functions function mem_cons_self, fun h => ⟨?_, nofun, nofun⟩⟩
  intro other hmem
  obtain rfl := mem_singleton.1 hmem
  exact h

theorem hasValue_cls {cls : Class} : stock.HasValue (.cls cls) ↔
    ∀ function ∈ cls.functions, ∀ expr ∈ function.decl.parts, stock.code expr :=
  ⟨fun h => h.functions, fun h => ⟨h, nofun, nofun⟩⟩

theorem hasValue_inst {inst : Instance} :
    stock.HasValue (.inst inst) ↔ stock.HasValue (.cls inst.cls) :=
  ⟨fun h => ⟨h.functions, nofun, nofun⟩, fun h => ⟨h.functions, nofun, nofun⟩⟩

private theorem mem_functions_of_findMethod? {name : String} {method : Function} :
    ∀ {cls : Class}, cls.findMethod? name = some method → method ∈ cls.functions
  | .mk _ _ none _, hfound => mem_map.2 ⟨_, Table.mem_of_get? hfound, rfl⟩
  | .mk _ _ (some superclass) methods, hfound => by
    simp only [Class.findMethod?] at hfound
    simp only [Class.functions, mem_append]
    split at hfound
    · rename_i hown
      cases hfound
      exact .inl (mem_map.2 ⟨_, Table.mem_of_get? hown, rfl⟩)
    · exact .inr (mem_functions_of_findMethod? hfound)

theorem HasValue.findMethod? {cls : Class} (h : stock.HasValue (.cls cls))
    {method : Function} (hfound : cls.findMethod? name = some method) :
    stock.HasValue (.callable (.function method)) :=
  hasValue_function.2 (h.functions method (mem_functions_of_findMethod? hfound))

/-! ## Classes -/

private theorem code_makeMethods (closure : ScopeId) {decls : List FunctionDecl}
    (hdecls : ∀ expr ∈ FunctionDecl.listParts decls, stock.code expr) :
    ∀ {methods : Table Function} (heap : Heap),
      (∀ entry ∈ methods, ∀ expr ∈ entry.2.decl.parts, stock.code expr) →
      ∀ entry ∈ (Heap.makeMethods closure (methods, heap) decls).1,
        ∀ expr ∈ entry.2.decl.parts, stock.code expr := by
  induction decls with
  | nil =>
    intro methods heap h
    exact h
  | cons decl rest ih =>
    rw [FunctionDecl.listParts] at hdecls
    intro methods heap h
    refine ih (fun expr hexpr => hdecls expr (mem_append_right _ hexpr)) _
      fun entry hentry => ?_
    rcases Table.mem_of_mem_put hentry with hold | rfl
    · exact h entry hold
    · exact fun expr hexpr => hdecls expr (mem_append_left _ hexpr)

theorem hasValue_makeClass (heap : Heap) (name : String) {superclass : Option Class}
    (hsuper : ∀ cls ∈ superclass, stock.HasValue (.cls cls))
    {methods : List FunctionDecl}
    (hmethods : ∀ expr ∈ FunctionDecl.listParts methods, stock.code expr)
    (closure : ScopeId) :
    stock.HasValue (.cls (heap.makeClass name superclass methods closure).1) := by
  have hnone : ∀ entry ∈ ([] : Table Function), ∀ expr ∈ entry.2.decl.parts,
      stock.code expr :=
    fun _ hmem => nomatch hmem
  have hown := code_makeMethods closure hmethods heap hnone
  refine hasValue_cls.2 fun function hfunction => ?_
  cases superclass with
  | none =>
    obtain ⟨entry, hentry, rfl⟩ := mem_map.1 hfunction
    exact hown entry hentry
  | some superclass =>
    rcases mem_append.1 hfunction with hfunction | hinherited
    · obtain ⟨entry, hentry, rfl⟩ := mem_map.1 hfunction
      exact hown entry hentry
    · exact hasValue_cls.1 (hsuper superclass rfl) function hinherited

/-! ## Statements -/

theorem covers_stmt {stmt : Stmt} : stock.Covers (stmt.contents env) ↔
    (∀ expr ∈ stmt.parts, stock.code expr) ∧
      ∀ name ∈ stmt.declared, env < stock.ground → stock.declares name := by
  rw [Stmt.contents, covers_append, covers_code, covers_map]
  rfl

/-! ## Worlds -/

/-- All values of a world that a stock keeps are from the stock. -/
theorem Keeps.holds (h : stock.Keeps world) : world.Holds stock.HasValue :=
  World.forall_contents.1 (covers_append.2 ⟨h.heap, h.frames⟩)

theorem Keeps.of_holds (h : world.Holds stock.HasValue)
    (hground : stock.ground ≤ world.heap.scopes.size) :
    stock.Keeps world := by
  obtain ⟨hheap, hframes⟩ := covers_append.1 (World.forall_contents.2 h)
  exact ⟨hheap, hframes, hground⟩

end Stock

end Treewalk
