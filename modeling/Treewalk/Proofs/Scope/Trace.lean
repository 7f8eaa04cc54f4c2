import Treewalk.Machine.Run
import Treewalk.Proofs.Scope.Sites

/-!
# What the scopes of a run were made for

The heap numbers scopes in the order in which they are made and does not say what a
scope was made for. A run is therefore followed together with a list that does:
`Machine.opened` is what the next transition makes scopes for, in order, and `Traced`
appends it transition by transition. The entry of the list at the address of a scope is
its origin.

A transition makes at most one scope for the receiver of a method and one for a call, in
this order; a block and the superclass of a class each get one of their own.
`Machine.Refers` says which node a state is about to look up, and where.
-/

namespace Treewalk.Machine

/-! ## The scopes of one transition -/

/-- The scopes made when a property is taken: one for the receiver of a method. -/
def openedByTake : Heap.Property × Instance → List Origin
  | (.field _, _) => []
  | (.method method, _) => [.receiver method.decl]

/-- The scopes made when a value is called. -/
def openedByInvoke (callee : Value) (args : List Value) : List Origin :=
  match callee.callable? with
  | none => []
  | some callable =>
    if args.length = callable.arity then
      match callable with
      | .function function => [.call function.decl]
      | .cls cls =>
        match cls.findMethod? Class.initializer with
        | none => []
        | some init => [.receiver init.decl, .call init.decl]
      | .native _ => []
    else []

/-- The scopes made by a call whose arguments are known. -/
def openedByComplete (ctx : Context) (world : World) (call : Call)
    (args : List (Expr × Value)) :
    List Origin :=
  let ⟨heap, frames, output⟩ := world
  let world : World := ⟨heap, frames.addAll (namedArguments args), output⟩
  let values := args.map (·.2)
  match call.callee with
  | .found callee => openedByInvoke callee values
  | .native => []
  | .named _ id =>
    match ctx.read world call.name id call.env with
    | .ok callee => openedByInvoke callee values
    | .error _ => []

/-- The scopes made by going on to the next argument of a call, or to the call
itself. -/
def openedByArgument (ctx : Context) (world : World) (call : Call)
    (done : List (Expr × Value)) :
    List Expr → List Origin
  | _ :: _ => []
  | [] => openedByComplete ctx world call done.reverse

/-- The scopes made after the frame of a call is entered. -/
def openedByEnter (ctx : Context) (world : World) (name : String)
    (next : World → List Origin) :
    List Origin :=
  if world.frames.depth > ctx.settings.maxCallDepth then []
  else
    let ⟨heap, frames, output⟩ := world
    next ⟨heap, frames.push name, output⟩

/-- The scopes made by the start of a call. -/
def openedByStart (ctx : Context) (world : World) (call : Call) (args : List Expr) :
    List Origin :=
  openedByEnter ctx world call.name fun world => openedByArgument ctx world call [] args

/-- The scopes made by the evaluation of a call. -/
def openedByCall (ctx : Context) (world : World) (env : ScopeId) (span : Span)
    (id : NodeId) (callee : Expr) (args : List Expr) : List Origin :=
  match callee with
  | .super _ method =>
    match world.superMethod method.node env with
    | .error _ => []
    | .ok (function, receiver) =>
      let (bound, world) := world.bind function receiver
      .receiver function.decl ::
        openedByStart ctx world ⟨span, method.node, .found bound, env⟩ args
  | .var access calleeId name =>
    let callee :=
      if ctx.resolution.isNativeCall id then .native else .named access calleeId
    openedByStart ctx world ⟨span, name, callee, env⟩ args
  | _ => []

/-- The scopes made when an expression is evaluated. -/
def openedByEvaluate (ctx : Context) (world : World) (env : ScopeId) :
    Expr → List Origin
  | .call span id callee args => openedByCall ctx world env span id callee args
  | .super _ method =>
    match world.superMethod method.node env with
    | .error _ => []
    | .ok (function, _) => [.receiver function.decl]
  | _ => []

/-- The scopes made when a statement is executed. -/
def openedByExecute : Stmt → List Origin
  | .block span body => [.block span body]
  | _ => []

/-- The scopes made when a value is handed on. -/
def openedByReceive (ctx : Context) (world : World) (value : Value) :
    Pending → List Origin
  | .get _ name =>
    match world.property value name with
    | .error _ => []
    | .ok property => openedByTake property
  | .receiver span _ name args env =>
    match world.property value name with
    | .error _ => []
    | .ok property =>
      let (method, world) := world.take property
      openedByTake property ++ openedByStart ctx world
        ⟨span, name, .found method, env⟩ args
  | .argument call done current rest =>
    openedByArgument ctx world call ((current, value) :: done) rest
  | .superclass _ decl _ =>
    match value with
    | .cls _ => [.superclass decl]
    | _ => []
  | _ => []

/-- The scopes made when the end of a statement is handed on. -/
def openedByProceed (ctx : Context) (world : World) : Pending → List Origin
  | .enterMain =>
    match world.readGlobal entryPoint globalScope with
    | .error _ => []
    | .ok main => openedByEnter ctx world entryPoint fun _ => openedByInvoke main []
  | _ => []

/-- What the next transition makes scopes for, in order. -/
def opened (ctx : Context) : Machine → List Origin
  | ⟨world, .eval expr env, _⟩ => openedByEvaluate ctx world env expr
  | ⟨_, .exec stmt _, _⟩ => openedByExecute stmt
  | ⟨world, .value value, next :: _⟩ => openedByReceive ctx world value next
  | ⟨world, .flow _, next :: _⟩ => openedByProceed ctx world next
  | _ => []

/-! ## Runs with the origins of their scopes -/

/-- A state that a run reaches, with the origins of all scopes made so far. -/
inductive Traced (ctx : Context) (start : Machine) : Machine → List Origin → Prop
  | start : Traced ctx start start [.globals]
  | step {m : Machine} {origins : List Origin} : Traced ctx start m origins →
      Traced ctx start (m.step ctx) (origins ++ m.opened ctx)

/-! ## Lookups -/

/-- The state is about to look up the name of a variable or assignment node in an
environment. The name that a call gives is looked up once the arguments are known. -/
inductive Refers (ctx : Context) : Machine → NodeId → String → ScopeId → Prop
  | var {world : World} {pending : List Pending} {span : Span} {id : NodeId}
      {name : String} {env : ScopeId} :
      Refers ctx ⟨world, .eval (.var span id name) env, pending⟩ id name env
  | assign {world : World} {value : Value} {pending : List Pending} {span : Span}
      {id : NodeId} {name : String} {env : ScopeId} :
      Refers ctx ⟨world, .value value, .assign span id name env :: pending⟩ id name env
  | call {world : World} {pending : List Pending} {span access : Span}
      {id callId : NodeId} {name : String} {env : ScopeId} :
      ctx.resolution.isNativeCall callId = false →
      Refers ctx ⟨world, .eval (.call span callId (.var access id name) []) env,
        pending⟩ id name env
  | argument {world : World} {value : Value} {pending : List Pending}
      {span access : Span} {id : NodeId} {name : String} {env : ScopeId}
      {done : List (Expr × Value)} {current : Expr} :
      Refers ctx ⟨world, .value value,
        .argument ⟨span, name, .named access id, env⟩ done current [] :: pending⟩
          id name env

/-- The state is about to look for `this` or `super` along the scopes. -/
inductive Seeks : Machine → String → Prop
  | this {world : World} {pending : List Pending} {span : Span} {env : ScopeId} :
      Seeks ⟨world, .eval (.this span) env, pending⟩ "this"
  | super {world : World} {pending : List Pending} {span : Span} {method : Name}
      {env : ScopeId} {name : String} : name = "this" ∨ name = "super" →
      Seeks ⟨world, .eval (.super span method) env, pending⟩ name
  | superCall {world : World} {pending : List Pending} {span access : Span}
      {id : NodeId} {method : Name} {args : List Expr} {env : ScopeId} {name : String} :
      name = "this" ∨ name = "super" →
      Seeks ⟨world, .eval (.call span id (.super access method) args) env, pending⟩ name

/-- The state may find the name undefined: it looks up a node without a recorded
distance, or `this` or `super`. -/
def MayMiss (ctx : Context) (m : Machine) (name : String) : Prop :=
  (∃ id env, Refers ctx m id name env ∧ ctx.resolution.distance? id = none) ∨
    Seeks m name

end Treewalk.Machine
