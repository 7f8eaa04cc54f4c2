import Treewalk.Proofs.Heap.Recast
import Treewalk.Proofs.Scope.Renaming
import Treewalk.Session

/-!
# Runs of programs written anew

The machine uses the number of a node for one thing, to ask what is known about it, and
where `break` leaves the function it does what `return` does. So if what is known is
renamed along with the trees, every transition commutes with the recast
(`Machine.step_recast`), and so does a whole run (`Machine.run_recast`): it prints the
same, fails the same, and ends with the recast heap.
-/

namespace Treewalk

open List

variable (c : Recast)

/-! ## States -/

/-- The world with its values recast. -/
def World.recast (world : World) : World :=
  ⟨world.heap.recast c, world.frames.recast c, world.output⟩

/-- The end of a statement with its value recast. -/
def Flow.recast : Flow → Flow
  | normal => normal
  | ret value => ret (value.recast c)
  | brk => brk

/-- What a call calls, recast. -/
def Callee.recast : Callee → Callee
  | found value => found (value.recast c)
  | native => native
  | named span id => named span (c.id id)

/-- The call with what it calls recast. -/
def Call.recast (call : Call) : Call :=
  ⟨call.span, call.name, call.callee.recast c, call.env⟩

/-- An argument with its value, both recast. -/
def recastArgument (argument : Expr × Value) : Expr × Value :=
  (argument.1.rename c.id, argument.2.recast c)

/-- The pending entry with its trees and values recast. -/
def Pending.recast : Pending → Pending
  | assign span id name env => assign span (c.id id) name env
  | binaryLeft span op right env => binaryLeft span op (right.rename c.id) env
  | binaryRight span left op => binaryRight span (left.recast c) op
  | logical op right env => logical op (right.rename c.id) env
  | unary span op => unary span op
  | get span name => get span name
  | setObject span name value env => setObject span name (value.rename c.id) env
  | setField inst name => setField (inst.recast c) name
  | receiver span access name args env =>
    receiver span access name (args.map (Expr.rename c.id)) env
  | argument call done current rest =>
    argument (call.recast c) (done.map (recastArgument c)) (current.rename c.id)
      (rest.map (Expr.rename c.id))
  | leave span => leave span
  | result function => result (function.recast c)
  | construct inst => construct (inst.recast c)
  | seq rest env => seq (rest.map (Stmt.recast c)) env
  | declare name env => declare name env
  | branch onTrue onFalse env =>
    branch (onTrue.recast c) (onFalse.map (Stmt.recast c)) env
  | loopTest cond body env => loopTest (cond.rename c.id) (body.recast c) env
  | loopBody cond body env => loopBody (cond.rename c.id) (body.recast c) env
  | print newline => print newline
  | ret => ret
  | discard => discard
  | superclass span decl env => superclass span (decl.recast c) env
  | enterMain => enterMain

/-- The control with its trees and values recast. -/
def Control.recast : Control → Control
  | eval expr env => eval (expr.rename c.id) env
  | exec stmt env => exec (stmt.recast c) env
  | native name args => native name (args.map (Value.recast c))
  | value v => value (v.recast c)
  | flow f => flow (f.recast c)
  | fail error => fail error

/-- The machine with its trees and values recast. -/
def Machine.recast (m : Machine) : Machine :=
  ⟨m.world.recast c, m.control.recast c, m.pending.map (Pending.recast c)⟩

/-- The contexts differ only in the numbers under which nodes are known, and `break`
does what is written for it. -/
structure Context.Matches (ctx ctx' : Context) : Prop where
  discipline : ctx'.discipline = ctx.discipline
  settings : ctx'.settings = ctx.settings
  natives : ctx'.natives = ctx.natives
  host : ctx'.host = ctx.host
  resolution : ctx.resolution.Renamed c.id ctx'.resolution
  breaks : c.returns = true → ctx.settings.breakPolicy = .function

/-! ## Variables and properties -/

section Variables

variable {c} {ctx ctx' : Context} (h : ctx.Matches c ctx') (world : World)
  (name : String) (env : ScopeId)

@[simp] theorem World.readGlobal_recast :
    (world.recast c).readGlobal name env =
      (world.readGlobal name env).map (Value.recast c) := by
  simp only [readGlobal, recast, Heap.bindings_recast, Table.get?_mapValues,
    Heap.visibleTables_recast, Table.names_mapValues]
  cases (world.heap.bindings globalScope).get? name <;> rfl

include h in
private theorem Context.frameValue?_recast :
    ctx'.frameValue? (world.recast c) name =
      (ctx.frameValue? world name).map (Value.recast c) := by
  simp only [frameValue?, h.discipline]
  cases ctx.discipline <;> simp [World.recast]

include h in
private theorem Context.read_recast (id : NodeId) :
    ctx'.read (world.recast c) name (c.id id) env =
      (ctx.read world name id env).map (Value.recast c) := by
  simp only [read, frameValue?_recast h, (h.resolution id).1]
  cases ctx.frameValue? world name with
  | some value => rfl
  | none =>
    cases ctx.resolution.distance? id with
    | some distance => exact Heap.getAt_recast c world.heap env distance name
    | none => exact World.readGlobal_recast world name env

include h in
private theorem Context.slots_recast (id : NodeId) :
    ctx'.slots (world.recast c) name (c.id id) env = ctx.slots world name id env := by
  have hscope : ctx'.scopeSlot (world.recast c) name (c.id id) env =
      ctx.scopeSlot world name id env := by
    simp only [scopeSlot, (h.resolution id).1]
    cases ctx.resolution.distance? id with
    | some distance => exact Heap.slotAt_recast c world.heap env distance name
    | none =>
      simp only [World.readGlobal_recast]
      cases world.readGlobal name env <;> rfl
  simp only [slots, hscope, frameValue?_recast h, Option.isSome_map]

private theorem World.assign_recast (slots : Slots) (value : Value) :
    (world.recast c).assign slots name (value.recast c) =
      (world.assign slots name value).recast c := by
  obtain ⟨heap, frames, output⟩ := world
  obtain ⟨frame, _ | scope⟩ := slots <;> cases frame <;> simp [assign, recast]

/-- A method and its receiver, both recast. -/
def recastMethod (c : Recast) (method : Function × Value) : Function × Value :=
  (method.1.recast c, method.2.recast c)

private theorem World.superMethod_recast :
    (world.recast c).superMethod name env =
      (world.superMethod name env).map (recastMethod c) := by
  simp only [superMethod, recast, Heap.lookup?_recast]
  cases world.heap.lookup? env "super" with
  | none => rfl
  | some value =>
    cases value with
    | cls superclass =>
      simp only [Option.map_some, Value.recast, Class.findMethod?_recast]
      cases world.heap.lookup? env "this" with
      | none => rfl
      | some receiver => cases superclass.findMethod? name <;> rfl
    | _ => rfl

@[simp] theorem World.bind_recast (method : Function) (receiver : Value) :
    (world.recast c).bind (method.recast c) (receiver.recast c) =
      ((world.bind method receiver).1.recast c,
        (world.bind method receiver).2.recast c) := by
  obtain ⟨heap, frames, output⟩ := world
  simp only [bind, recast, Heap.bind_recast]
  rfl

/-- A property and its instance, both recast. -/
def recastProperty (c : Recast) (property : Heap.Property × Instance) :
    Heap.Property × Instance :=
  (property.1.recast c, property.2.recast c)

private theorem World.property_recast (object : Value) :
    (world.recast c).property (object.recast c) name =
      (world.property object name).map (recastProperty c) := by
  cases object with
  | inst inst =>
    simp only [property, recast, Value.recast, Heap.property?_recast,
      Heap.fieldsOf_recast, Table.names_mapValues]
    cases world.heap.property? inst name <;> rfl
  | _ => rfl

private theorem World.take_recast (property : Heap.Property × Instance) :
    (world.recast c).take (recastProperty c property) =
      ((world.take property).1.recast c, (world.take property).2.recast c) := by
  obtain ⟨value | method, inst⟩ := property
  · rfl
  · exact World.bind_recast world method (.inst inst)

end Variables

/-! ## Capabilities -/

namespace Native

/-- A capability looks at strings only and answers numbers and strings. -/
theorem invoke_recast (answers : Answers) (native : Native) (args : List Value) :
    native.invoke answers (args.map (Value.recast c)) =
      (native.invoke answers args).map (Value.recast c) := by
  cases native with
  | clock => rfl
  | fileOpen =>
    cases args with
    | nil => rfl
    | cons arg args =>
      cases arg with
      | string path =>
        simp only [map_cons, Value.recast, Native.invoke]
        cases answers.fileText path <;> rfl
      | _ => rfl
  | availableMemory =>
    simp only [Native.invoke]
    cases answers.memoryReport with
    | error reason => rfl
    | ok report =>
      simp only
      cases freeBytes? report <;> rfl

private theorem dispatch_recast (natives : List Native) (answers : Answers)
    (name : String) (args : List Value) :
    dispatch natives answers name (args.map (Value.recast c)) =
      (dispatch natives answers name args).map (Value.recast c) := by
  simp only [dispatch, length_map, invoke_recast]
  cases named? name natives with
  | none => rfl
  | some native =>
    simp only
    split <;> rfl

end Native

namespace Machine

variable {c} {ctx ctx' : Context} (h : ctx.Matches c ctx') (world : World)
  (pending : List Pending)

/-! ## Calls -/

private theorem answer_recast (span : Option Span) (result : Except Cause Value) :
    answer (world.recast c) (pending.map (Pending.recast c)) span
      (result.map (Value.recast c)) = (answer world pending span result).recast c := by
  cases result <;> rfl

private theorem callFunction_recast (function : Function) (args : List Value) :
    callFunction (world.recast c) (pending.map (Pending.recast c)) (function.recast c)
        (args.map (Value.recast c)) =
      (callFunction world pending function args).recast c := by
  obtain ⟨heap, frames, output⟩ := world
  have hentries :
    ((function.decl.params.map (·.node)).zip (args.map (Value.recast c))) =
      Table.mapValues (Value.recast c)
        ((function.decl.params.map (·.node)).zip args) := by
    rw [zip_map_right]
    rfl
  have hparams : Table.putAll [] ((function.decl.params.map (·.node)).zip
      (args.map (Value.recast c))) =
        (Table.putAll [] ((function.decl.params.map (·.node)).zip args)).mapValues
        (Value.recast c) := by
    rw [hentries, ← Table.putAll_mapValues, Table.mapValues_nil]
  simp only [callFunction, World.recast, Function.recast, FunctionDecl.params_recast,
    FunctionDecl.body_recast, hparams, Heap.makeChild_recast]
  rfl

private theorem construct_recast (cls : Class) (args : List Value) :
    construct (world.recast c) (pending.map (Pending.recast c)) (cls.recast c)
        (args.map (Value.recast c)) =
      (construct world pending cls args).recast c := by
  obtain ⟨heap, frames, output⟩ := world
  simp only [construct, World.recast, Heap.makeInstance_recast,
    Class.findMethod?_recast]
  cases cls.findMethod? Class.initializer with
  | none => rfl
  | some init =>
    have hbind :=
      (heap.makeInstance cls).2.bind_recast c init (.inst (heap.makeInstance cls).1)
    simp only [Value.recast] at hbind
    simp only [Option.map_some, hbind]
    exact callFunction_recast ⟨_, frames, output⟩ (.construct _ :: pending) _ args

theorem invoke_recast (name : String) (callee : Value) (args : List Value) :
    invoke (world.recast c) (pending.map (Pending.recast c)) name (callee.recast c)
        (args.map (Value.recast c)) =
      (invoke world pending name callee args).recast c := by
  simp only [invoke, Value.callable?_recast, Value.kind_recast, length_map]
  cases callee.callable? with
  | none => rfl
  | some callable =>
    simp only [Option.map_some, Callable.arity_recast]
    by_cases harity : args.length = callable.arity
    · simp only [if_pos harity]
      cases callable with
      | function function => exact callFunction_recast world pending function args
      | cls cls => exact construct_recast world pending cls args
      | native native => rfl
    · simp only [if_neg harity]
      rfl

private theorem namedArguments_recast (args : List (Expr × Value)) :
    namedArguments (args.map (recastArgument c)) =
      Table.mapValues (Value.recast c) (namedArguments args) := by
  induction args with
  | nil => rfl
  | cons arg args ih =>
    obtain ⟨expr, value⟩ := arg
    cases expr with
    | var span id name => exact congrArg ((name, value.recast c) :: ·) ih
    | _ => exact ih

include h in
private theorem complete_recast (call : Call) (args : List (Expr × Value)) :
    complete ctx' (world.recast c) (pending.map (Pending.recast c)) (call.recast c)
        (args.map (recastArgument c)) =
      (complete ctx world pending call args).recast c := by
  obtain ⟨heap, frames, output⟩ := world
  obtain ⟨span, name, callee, env⟩ := call
  have hvalues : (args.map (recastArgument c)).map (·.2) =
      (args.map (·.2)).map (Value.recast c) := by
    simp [recastArgument]
  simp only [complete, World.recast, Call.recast, namedArguments_recast, hvalues,
    Frames.addAll_recast]
  cases callee with
  | found value => exact invoke_recast ⟨heap, _, output⟩ pending name value _
  | native => rfl
  | named span id =>
    have hread :=
      Context.read_recast h ⟨heap, frames.addAll (namedArguments args), output⟩
      name env id
    simp only [World.recast] at hread
    simp only [Callee.recast, hread]
    cases ctx.read ⟨heap, frames.addAll (namedArguments args), output⟩ name id env with
    | error cause => rfl
    | ok callee => exact invoke_recast ⟨heap, _, output⟩ pending name callee _

include h in
private theorem nextArgument_recast (call : Call) (done : List (Expr × Value))
    (rest : List Expr) :
    nextArgument ctx' (world.recast c) (pending.map (Pending.recast c)) (call.recast c)
        (done.map (recastArgument c)) (rest.map (Expr.rename c.id)) =
      (nextArgument ctx world pending call done rest).recast c := by
  cases rest with
  | cons expr rest => rfl
  | nil =>
    simp only [nextArgument, map_nil, ← map_reverse]
    exact complete_recast h world pending call done.reverse

include h in
private theorem enter_recast (name : String) (span : Option Span)
    {next next' : World → List Pending → Machine}
    (hnext : ∀ world pending, next' (world.recast c) (pending.map (Pending.recast c)) =
      (next world pending).recast c) :
    enter ctx' (world.recast c) (pending.map (Pending.recast c)) name span next' =
      (enter ctx world pending name span next).recast c := by
  obtain ⟨heap, frames, output⟩ := world
  simp only [enter, h.settings, World.recast, Frames.depth_recast]
  split
  · rfl
  · exact hnext ⟨heap, frames.push name, output⟩ (.leave span :: pending)

include h in
private theorem startCall_recast (call : Call) (args : List Expr) :
    startCall ctx' (world.recast c) (pending.map (Pending.recast c)) (call.recast c)
        (args.map (Expr.rename c.id)) =
      (startCall ctx world pending call args).recast c :=
  enter_recast h world pending call.name (some call.span) fun world pending =>
    nextArgument_recast h world pending call [] args

/-! ## Expressions and statements -/

include h in
private theorem evaluateCall_recast (env : ScopeId) (span : Span) (id : NodeId)
    (callee : Expr) (args : List Expr) :
    evaluateCall ctx' (world.recast c) (pending.map (Pending.recast c)) env
      span (c.id id)
        (callee.rename c.id) (args.map (Expr.rename c.id)) =
      (evaluateCall ctx world pending env span id callee args).recast c := by
  cases callee with
  | super access method =>
    simp only [Expr.rename, evaluateCall, World.superMethod_recast]
    cases world.superMethod method.node env with
    | error cause => rfl
    | ok found =>
      obtain ⟨function, receiver⟩ := found
      simp only [Except.map, recastMethod, World.bind_recast]
      exact startCall_recast h _ pending ⟨span, method.node, .found _, env⟩ args
  | var access calleeId name =>
    simp only [Expr.rename, evaluateCall, (h.resolution id).2]
    split
    · exact startCall_recast h world pending ⟨span, name, .native, env⟩ args
    · exact startCall_recast h world pending ⟨span, name, .named access calleeId, env⟩
        args
  | _ => rfl

include h in
private theorem evaluate_recast (env : ScopeId) (expr : Expr) :
    evaluate ctx' (world.recast c) (pending.map (Pending.recast c)) env
      (expr.rename c.id) = (evaluate ctx world pending env expr).recast c := by
  cases expr with
  | call span id callee args =>
    simp only [Expr.rename, Expr.listRename_eq_map, evaluate]
    exact evaluateCall_recast h world pending env span id callee args
  | literal span value =>
    simp only [Expr.rename, evaluate, recast, Control.recast, Value.recast_ofLiteral]
  | super span method =>
    simp only [Expr.rename, evaluate, World.superMethod_recast]
    cases world.superMethod method.node env with
    | error cause => rfl
    | ok found =>
      obtain ⟨function, receiver⟩ := found
      simp only [Except.map, recastMethod, World.bind_recast]
      rfl
  | this span =>
    have hlookup := world.heap.lookup?_recast c env "this"
    simp only [Expr.rename, evaluate, World.recast, hlookup]
    cases world.heap.lookup? env "this" <;> rfl
  | var span id name =>
    simp only [Expr.rename, evaluate, Context.read_recast h]
    exact answer_recast world pending (some span) _
  | _ => rfl

private theorem declareVar_recast (env : ScopeId) (name : String) (value : Value) :
    declareVar (world.recast c) (pending.map (Pending.recast c)) env name
      (value.recast c) = (declareVar world pending env name value).recast c := by
  obtain ⟨heap, frames, output⟩ := world
  simp [declareVar, recast, World.recast, Control.recast, Flow.recast]

private theorem declareClass_recast (env : ScopeId) (decl : ClassDecl)
    (superclass : Option Class) :
    declareClass (world.recast c) (pending.map (Pending.recast c)) env (decl.recast c)
        (superclass.map (Class.recast c)) =
      (declareClass world pending env decl superclass).recast c := by
  obtain ⟨heap, frames, output⟩ := world
  have hnothing := heap.define_recast c env decl.name.node .nothing
  simp only [Value.recast] at hnothing
  have hclass : ∀ cls : Class, Value.cls (cls.recast c) = (Value.cls cls).recast c :=
    fun _ => rfl
  cases superclass with
  | none =>
    have hmake := fun heap' : Heap =>
      heap'.makeClass_recast c decl.name.node none decl.methods env
    simp only [Option.map_none] at hmake
    simp only [declareClass, World.recast, ClassDecl.name_recast,
      ClassDecl.methods_recast, hnothing, Option.map_none, hmake, hclass,
      Heap.define_recast, Frames.add_recast]
    rfl
  | some superclass =>
    have hchild := (heap.define env decl.name.node .nothing).makeChild_recast c env
      [("super", .cls superclass)]
    simp only [Table.mapValues_cons, Table.mapValues_nil] at hchild
    have hmake := fun (heap' : Heap) (closure : ScopeId) =>
      heap'.makeClass_recast c decl.name.node (some superclass) decl.methods closure
    simp only [Option.map_some] at hmake
    simp only [declareClass, World.recast, ClassDecl.name_recast,
      ClassDecl.methods_recast, hnothing, Option.map_some, hchild, hmake, hclass,
      Heap.define_recast, Frames.add_recast]
    rfl

include h in
private theorem execute_recast (env : ScopeId) (stmt : Stmt) :
    execute ctx' (world.recast c) (pending.map (Pending.recast c)) env (stmt.recast c) =
      (execute ctx world pending env stmt).recast c := by
  cases stmt with
  | block span body =>
    obtain ⟨heap, frames, output⟩ := world
    have hchild := heap.makeChild_recast c env []
    rw [Table.mapValues_nil] at hchild
    simp only [Stmt.recast, Stmt.listRecast_eq_map, execute, World.recast, hchild]
    rfl
  | funcDecl span decl =>
    obtain ⟨heap, frames, output⟩ := world
    have hvalue : ∀ function : Function,
      Value.callable (.function (function.recast c)) =
        (Value.callable (.function function)).recast c := fun _ => rfl
    simp only [Stmt.recast, execute, World.recast, Heap.makeFunction_recast,
      FunctionDecl.name_recast, hvalue, Heap.define_recast]
    rfl
  | classDecl span decl =>
    simp only [Stmt.recast, execute, ClassDecl.superclass_recast]
    cases decl.superclass with
    | none => exact declareClass_recast world pending env decl none
    | some superclass => simp [recast, Control.recast, Pending.recast]
  | branch span cond onTrue onFalse =>
    cases onFalse <;> simp only [Stmt.recast, execute] <;> rfl
  | print span newline operand =>
    cases operand <;>
      simp only [Stmt.recast, Option.map_none, Option.map_some, execute] <;> rfl
  | ret span operand =>
    cases operand <;>
      simp only [Stmt.recast, Option.map_none, Option.map_some, execute] <;> rfl
  | brk span =>
    rw [Stmt.recast, Recast.brk]
    split
    · -- `return;` gives what `break;` gives under this policy.
      rename_i hreturns
      simp only [execute, h.breaks hreturns]
      rfl
    · simp only [execute, h.settings]
      cases ctx.settings.breakPolicy <;> rfl
  | var span name init =>
    cases init with
    | none =>
      simp only [Stmt.recast, Option.map_none, execute]
      exact declareVar_recast world pending env name.node .nothing
    | some init =>
      simp only [Stmt.recast, Option.map_some, execute]
      rfl
  | loop span cond body =>
    simp only [Stmt.recast, execute]
    rfl
  | expression span expr =>
    simp only [Stmt.recast, execute]
    rfl

private theorem printValue_recast (newline : Bool) (value : Value) :
    printValue (world.recast c) (pending.map (Pending.recast c)) newline
      (value.recast c) = (printValue world pending newline value).recast c := by
  obtain ⟨heap, frames, output⟩ := world
  simp only [printValue, Value.isPrintable_recast, Value.text_recast]
  split <;> rfl

/-! ## Outcomes -/

include h in
private theorem receive_recast (value : Value) (next : Pending) :
    receive ctx' (world.recast c) (pending.map (Pending.recast c)) (value.recast c)
        (next.recast c) =
      (receive ctx world pending value next).recast c := by
  cases next with
  | assign span id name env =>
    simp only [Pending.recast, receive, Context.slots_recast h]
    cases ctx.slots world name id env with
    | error cause => rfl
    | ok slots =>
      simp only [World.assign_recast]
      rfl
  | binaryRight span left op =>
    simp only [Pending.recast, receive, Value.binary_recast]
    exact answer_recast world pending (some span) _
  | logical op right env =>
    cases op <;> simp only [Pending.recast, receive, Value.isTruthy_recast] <;>
      split <;> rfl
  | unary span op =>
    simp only [Pending.recast, receive, Value.unary_recast]
    exact answer_recast world pending (some span) _
  | get span name =>
    simp only [Pending.recast, receive, World.property_recast]
    cases world.property value name with
    | error cause => rfl
    | ok property =>
      simp only [Except.map, World.take_recast]
      rfl
  | setObject span name operand env => cases value <;> rfl
  | setField inst name =>
    obtain ⟨heap, frames, output⟩ := world
    simp only [Pending.recast, receive, World.recast, Heap.setField_recast]
    rfl
  | receiver span access name args env =>
    simp only [Pending.recast, receive, World.property_recast]
    cases world.property value name with
    | error cause => rfl
    | ok property =>
      simp only [Except.map, World.take_recast]
      exact startCall_recast h _ pending ⟨span, name, .found _, env⟩ args
  | argument call done current rest =>
    exact nextArgument_recast h world pending call ((current, value) :: done) rest
  | leave span =>
    obtain ⟨heap, frames, output⟩ := world
    simp only [Pending.recast, receive, World.recast, Frames.pop_recast]
    rfl
  | declare name env => exact declareVar_recast world pending env name value
  | branch onTrue onFalse env =>
    simp only [Pending.recast, receive, Value.isTruthy_recast]
    split
    · rfl
    · cases onFalse <;> rfl
  | loopTest cond body env =>
    simp only [Pending.recast, receive, Value.isTruthy_recast]
    split <;> rfl
  | print newline => exact printValue_recast world pending newline value
  | superclass span decl env =>
    cases value with
    | cls superclass =>
      exact declareClass_recast world pending env decl (some superclass)
    | _ =>
      simp only [Pending.recast, receive, Value.recast, ClassDecl.name_recast]
      rfl
  | _ => rfl

private theorem resultOf_recast (function : Function) (flow : Flow) :
    resultOf (world.recast c) (function.recast c) (flow.recast c) =
      (resultOf world function flow).map (Value.recast c) := by
  simp only [resultOf, Function.recast, World.recast, Heap.getAt_recast]
  split
  · rfl
  · cases flow <;> rfl

include h in
private theorem proceed_recast (flow : Flow) (next : Pending) :
    proceed ctx' (world.recast c) (pending.map (Pending.recast c)) (flow.recast c)
        (next.recast c) =
      (proceed ctx world pending flow next).recast c := by
  cases next with
  | seq rest env => cases flow <;> cases rest <;> rfl
  | loopBody cond body env => cases flow <;> rfl
  | result function =>
    simp only [Pending.recast, proceed, resultOf_recast]
    exact answer_recast world pending none _
  | enterMain =>
    simp only [Pending.recast, proceed, World.readGlobal_recast]
    cases world.readGlobal entryPoint globalScope with
    | error cause => rfl
    | ok main =>
      exact enter_recast h world pending entryPoint none fun world pending =>
        invoke_recast world pending entryPoint main []
  | _ => cases flow <;> rfl

theorem unwind_recast (error : RuntimeError) (next : Pending) :
    unwind (world.recast c) (pending.map (Pending.recast c)) error (next.recast c) =
      (unwind world pending error next).recast c := by
  cases next with
  | leave span =>
    obtain ⟨heap, frames, output⟩ := world
    simp only [Pending.recast, unwind, World.recast, Frames.pop_recast]
    rfl
  | _ => rfl

include h in
theorem callNative_recast (name : String) (args : List Value) :
    callNative ctx' (world.recast c) (pending.map (Pending.recast c)) name
        (args.map (Value.recast c)) =
      (callNative ctx world pending name args).recast c := by
  obtain ⟨heap, frames, output⟩ := world
  simp only [callNative, World.recast, Heap.draw_recast, h.natives, h.host, h.settings,
    Native.dispatch_recast]
  cases Native.dispatch ctx.natives (ctx.host.answers heap.draw.1) name args with
  | ok value => rfl
  | error fault => cases ctx.settings.faultPolicy <;> rfl

/-! ## Transitions and runs -/

include h in
/-- A transition of the recast machine is the recast transition. -/
theorem step_recast (m : Machine) : step ctx' (m.recast c) = (step ctx m).recast c := by
  obtain ⟨world, control, pending⟩ := m
  cases control with
  | eval expr env => exact evaluate_recast h world pending env expr
  | exec stmt env => exact execute_recast h world pending env stmt
  | native name args => exact callNative_recast h world pending name args
  | value value =>
    cases pending with
    | nil => rfl
    | cons next pending => exact receive_recast h world pending value next
  | flow flow =>
    cases pending with
    | nil => rfl
    | cons next pending => exact proceed_recast h world pending flow next
  | fail error =>
    cases pending with
    | nil => rfl
    | cons next pending => exact unwind_recast world pending error next

private theorem outcome?_recast (m : Machine) :
    (m.recast c).outcome? = m.outcome?.map fun result =>
      result.map fun value => value.map (Value.recast c) := by
  obtain ⟨world, control, pending⟩ := m
  cases control <;> cases pending <;> rfl

include h in
/-- A run of the recast machine is the recast run. -/
theorem run_recast (limit : Nat) (m : Machine) :
    run ctx' limit (m.recast c) = (run ctx limit m).recast c := by
  induction limit generalizing m with
  | zero => rfl
  | succ limit ih =>
    have hfinal : (m.recast c).isFinal = m.isFinal := by
      simp [isFinal, outcome?_recast]
    simp only [run, hfinal]
    split
    · rfl
    · rw [step_recast h, ih]

end Machine

/-! ## Starts -/

variable (c : Recast)

private theorem Program.hasEntryPoint_recast (program : Program) :
    (program.recast c).hasEntryPoint = program.hasEntryPoint := by
  have hstmt : ∀ stmt : Stmt, (stmt.recast c).isEntryPoint = stmt.isEntryPoint := by
    intro stmt
    cases stmt with
    | branch _ _ _ onFalse =>
      cases onFalse <;> simp only [Stmt.recast, Stmt.isEntryPoint]
    | brk span =>
      rw [Stmt.recast, Recast.brk]
      split <;> rfl
    | _ =>
      simp only [Stmt.recast, Stmt.isEntryPoint, FunctionDecl.name_recast,
        FunctionDecl.params_recast, ClassDecl.name_recast]
  simp [hasEntryPoint, recast, any_map, Function.comp_def, hstmt]

theorem Machine.ofProgram_recast (heap : Heap) (program : Program) :
    ofProgram (heap.recast c) (program.recast c) =
      (ofProgram heap program).recast c := by
  have hfilter : (program.recast c).stmts.filter Stmt.isDeclaration =
      (program.stmts.filter Stmt.isDeclaration).map (Stmt.recast c) := by
    rw [Program.recast, filter_map]
    congr 1
    exact filter_congr fun stmt _ => stmt.isDeclaration_recast c
  unfold ofProgram
  rw [program.hasEntryPoint_recast]
  split
  · rw [ofEntryPoint, hfilter]
    rfl
  · rfl

/-- The first heap holds capabilities only, and these have no trees. -/
theorem Heap.recast_start (natives : List Native) :
    (Heap.start natives).recast c = Heap.start natives := by
  have hbindings : Table.mapValues (Value.recast c)
      (natives.map fun native => (native.name, .callable (.native native))) =
      natives.map fun native => (native.name, .callable (.native native)) := by
    simp [Table.mapValues, Value.recast, Callable.recast]
  simp [Heap.start, recast, makeScope, Scope.recast, Heap.empty, hbindings]

@[simp] theorem Heap.globalNames_recast (heap : Heap) :
    (heap.recast c).globalNames = heap.globalNames := by
  simp only [globalNames, bindings_recast]
  induction heap.bindings globalScope with
  | nil => rfl
  | cons entry table ih =>
    obtain ⟨name, value⟩ := entry
    cases value with
    | callable callable => cases callable <;> simp_all [Value.recast, Callable.recast]
    | _ => simp_all [Value.recast]

/-! ## Sessions -/

variable {c}

/-- A task written anew is performed alike: it prints the same, and its result and the
heap are recast. -/
theorem Session.perform_recast {session session' : Session} {host : Host}
    (hcontext : (session.context host).Matches c (session'.context host))
    {task task' : Task}
    (hmachine : task'.machine session'.heap = (task.machine session.heap).recast c)
    (limit : Nat) :
    session'.perform limit host task' = (session.perform limit host task).map
      fun (done, report) =>
      ({ session' with heap := done.heap.recast c },
        ⟨report.result.map fun value => value.map (Value.recast c),
          report.output⟩) := by
  unfold perform
  rw [hmachine, Machine.run_recast hcontext]
  simp only [Machine.outcome?_recast, Option.map_map]
  rfl

end Treewalk
