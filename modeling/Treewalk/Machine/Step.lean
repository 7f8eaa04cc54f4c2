import Treewalk.Machine.Call
import Treewalk.Value.Operator

/-!
# The transitions of the machine

`Machine.step` is one transition. It looks at the control alone to evaluate an
expression or execute a statement, and at the control and the first pending entry to
hand on an outcome. A state without pending entries that hands on an outcome is final
and stays as it is; so does a state whose outcome does not fit its first pending entry,
which no run reaches.
-/

namespace Treewalk.Machine

/-! ## Expressions -/

/-- Evaluates a call, by what stands before its arguments. -/
def evaluateCall (ctx : Context) (world : World) (pending : List Pending)
    (env : ScopeId) (span : Span) (id : NodeId) (callee : Expr) (args : List Expr) :
    Machine :=
  match callee with
  | .get access object name =>
    ⟨world, .eval object env, .receiver span access name.node args env :: pending⟩
  | .super access method =>
    match world.superMethod method.node env with
    | .error cause => failAt world pending cause (some access)
    | .ok (function, receiver) =>
      let (bound, world) := world.bind function receiver
      startCall ctx world pending ⟨span, method.node, .found bound, env⟩ args
  | .var access calleeId name =>
    let callee :=
      if ctx.resolution.isNativeCall id then .native else .named access calleeId
    startCall ctx world pending ⟨span, name, callee, env⟩ args
  | other => failAt world pending .unnamedCallee (some other.span)

/-- Evaluates an expression. -/
def evaluate (ctx : Context) (world : World) (pending : List Pending) (env : ScopeId) :
    Expr → Machine
  | .assign span id name value =>
    ⟨world, .eval value env, .assign span id name env :: pending⟩
  | .binary span left op right =>
    ⟨world, .eval left env, .binaryLeft span op right env :: pending⟩
  | .call span id callee args => evaluateCall ctx world pending env span id callee args
  | .get span object name => ⟨world, .eval object env, .get span name.node :: pending⟩
  | .grouping _ inner => ⟨world, .eval inner env, pending⟩
  | .literal _ value => ⟨world, .value (.ofLiteral value), pending⟩
  | .logical _ left op right =>
    ⟨world, .eval left env, .logical op right env :: pending⟩
  | .set span object name value =>
    ⟨world, .eval object env, .setObject span name.node value env :: pending⟩
  | .super span method =>
    match world.superMethod method.node env with
    | .error cause => failAt world pending cause (some span)
    | .ok (function, receiver) =>
      let (bound, world) := world.bind function receiver
      ⟨world, .value bound, pending⟩
  | .this span =>
    match world.heap.lookup? env "this" with
    | some receiver => ⟨world, .value receiver, pending⟩
    | none => failAt world pending (.undefinedVariable "this" []) (some span)
  | .unary span op operand => ⟨world, .eval operand env, .unary span op :: pending⟩
  | .var span id name => answer world pending (some span) (ctx.read world name id env)

/-! ## Statements -/

/-- What `break` does. -/
def breakFlow : BreakPolicy → Flow
  | .function => .ret .nothing
  | .loop => .brk

/-- Executes a class declaration whose superclass is known. The class is bound to its
name; the scope that its methods see binds `super` where there is a superclass. -/
def declareClass (world : World) (pending : List Pending) (env : ScopeId)
    (decl : ClassDecl) (superclass : Option Class) : Machine :=
  let ⟨heap, frames, output⟩ := world
  let name := decl.name.node
  let heap := heap.define env name .nothing
  let (methodEnv, heap) := match superclass with
    | some superclass => heap.makeChild env [("super", .cls superclass)]
    | none => (env, heap)
  let (cls, heap) := heap.makeClass name superclass decl.methods methodEnv
  let cls := Value.cls cls
  ⟨⟨heap.define env name cls, frames.add name cls, output⟩, .flow .normal, pending⟩

/-- Binds a variable in the top frame and in its scope. -/
def declareVar (world : World) (pending : List Pending) (env : ScopeId) (name : String)
    (value : Value) : Machine :=
  let ⟨heap, frames, output⟩ := world
  ⟨⟨heap.define env name value, frames.add name value, output⟩, .flow .normal, pending⟩

/-- Executes a statement. -/
def execute (ctx : Context) (world : World) (pending : List Pending) (env : ScopeId) :
    Stmt → Machine
  | .block _ body =>
    let ⟨heap, frames, output⟩ := world
    let (inner, heap) := heap.makeChild env []
    ⟨⟨heap, frames, output⟩, .flow .normal, .seq body inner :: pending⟩
  | .funcDecl _ decl =>
    let ⟨heap, frames, output⟩ := world
    let (function, heap) := heap.makeFunction decl env false
    ⟨⟨heap.define env decl.name.node (.callable (.function function)), frames, output⟩,
      .flow .normal, pending⟩
  | .classDecl _ decl =>
    match decl.superclass with
    | some superclass =>
      ⟨world, .eval superclass env, .superclass superclass.span decl env :: pending⟩
    | none => declareClass world pending env decl none
  | .branch _ cond onTrue onFalse =>
    ⟨world, .eval cond env, .branch onTrue onFalse env :: pending⟩
  | .print _ _ none => ⟨world, .flow .normal, pending⟩
  | .print _ newline (some operand) =>
    ⟨world, .eval operand env, .print newline :: pending⟩
  | .ret _ none => ⟨world, .flow (.ret .nothing), pending⟩
  | .ret _ (some operand) => ⟨world, .eval operand env, .ret :: pending⟩
  | .brk _ => ⟨world, .flow (breakFlow ctx.settings.breakPolicy), pending⟩
  | .var _ name none => declareVar world pending env name.node .nothing
  | .var _ name (some init) =>
    ⟨world, .eval init env, .declare name.node env :: pending⟩
  | .loop _ cond body => ⟨world, .eval cond env, .loopTest cond body env :: pending⟩
  | .expression _ expr => ⟨world, .eval expr env, .discard :: pending⟩

/-- Prints a value, unless it is of a kind that is not printed. -/
def printValue (world : World) (pending : List Pending) (newline : Bool)
    (value : Value) :
    Machine :=
  if value.isPrintable then
    let ⟨heap, frames, output⟩ := world
    let output := output ++ value.text
    ⟨⟨heap, frames, if newline then output.push '\n' else output⟩,
      .flow .normal, pending⟩
  else ⟨world, .flow .normal, pending⟩

/-! ## Outcomes -/

/-- Hands a value to what waits for it. -/
def receive (ctx : Context) (world : World) (pending : List Pending) (value : Value) :
    Pending → Machine
  | .assign span id name env =>
    match ctx.slots world name id env with
    | .ok slots => ⟨world.assign slots name value, .value value, pending⟩
    | .error cause => failAt world pending cause (some span)
  | .binaryLeft span op right env =>
    ⟨world, .eval right env, .binaryRight span value op :: pending⟩
  | .binaryRight span left op => answer world pending (some span) (left.binary op value)
  | .logical .or right env =>
    if value.isTruthy then ⟨world, .value value, pending⟩
    else ⟨world, .eval right env, pending⟩
  | .logical .and right env =>
    if value.isTruthy then ⟨world, .eval right env, pending⟩
    else ⟨world, .value value, pending⟩
  | .unary span op => answer world pending (some span) (value.unary op)
  | .get span name =>
    match world.property value name with
    | .error cause => failAt world pending cause (some span)
    | .ok property =>
      let (value, world) := world.take property
      ⟨world, .value value, pending⟩
  | .setObject span name operand env =>
    match value with
    | .inst inst => ⟨world, .eval operand env, .setField inst name :: pending⟩
    | other => failAt world pending (.fieldsOf other.kind) (some span)
  | .setField inst name =>
    let ⟨heap, frames, output⟩ := world
    ⟨⟨heap.setField inst name value, frames, output⟩, .value value, pending⟩
  | .receiver span access name args env =>
    match world.property value name with
    | .error cause => failAt world pending cause (some access)
    | .ok property =>
      let (method, world) := world.take property
      startCall ctx world pending ⟨span, name, .found method, env⟩ args
  | .argument call done current rest =>
    nextArgument ctx world pending call ((current, value) :: done) rest
  | .leave _ =>
    let ⟨heap, frames, output⟩ := world
    ⟨⟨heap, frames.pop, output⟩, .value value, pending⟩
  | .construct inst => ⟨world, .value (.inst inst), pending⟩
  | .declare name env => declareVar world pending env name value
  | .branch onTrue onFalse env =>
    if value.isTruthy then ⟨world, .exec onTrue env, pending⟩
    else
      match onFalse with
      | some onFalse => ⟨world, .exec onFalse env, pending⟩
      | none => ⟨world, .flow .normal, pending⟩
  | .loopTest cond body env =>
    if value.isTruthy then ⟨world, .exec body env, .loopBody cond body env :: pending⟩
    else ⟨world, .flow .normal, pending⟩
  | .print newline => printValue world pending newline value
  | .ret => ⟨world, .flow (.ret value), pending⟩
  | .discard => ⟨world, .flow .normal, pending⟩
  | .superclass span decl env =>
    match value with
    | .cls superclass => declareClass world pending env decl (some superclass)
    | other =>
      failAt world pending (.superclassOf decl.name.node other.kind) (some span)
  | .result function => ⟨world, .value value, .result function :: pending⟩
  | .seq rest env => ⟨world, .value value, .seq rest env :: pending⟩
  | .loopBody cond body env => ⟨world, .value value, .loopBody cond body env :: pending⟩
  | .enterMain => ⟨world, .value value, .enterMain :: pending⟩

/-- The value of a call whose body ended: an initializer gives its receiver, any other
function what it returned. -/
def resultOf (world : World) (function : Function) : Flow → Except Cause Value
  | flow =>
    if function.isInit then world.heap.getAt function.closure 0 "this"
    else
      match flow with
      | .ret value => .ok value
      | _ => .ok .nothing

/-- Hands the end of a statement to what waits for it. -/
def proceed (ctx : Context) (world : World) (pending : List Pending) (flow : Flow) :
    Pending → Machine
  | .seq rest env =>
    match flow, rest with
    | .normal, stmt :: rest => ⟨world, .exec stmt env, .seq rest env :: pending⟩
    | flow, _ => ⟨world, .flow flow, pending⟩
  | .loopBody cond body env =>
    match flow with
    | .normal => ⟨world, .eval cond env, .loopTest cond body env :: pending⟩
    | .brk => ⟨world, .flow .normal, pending⟩
    | .ret value => ⟨world, .flow (.ret value), pending⟩
  | .result function => answer world pending none (resultOf world function flow)
  | .enterMain =>
    match world.readGlobal entryPoint globalScope with
    | .error cause => failAt world pending cause none
    | .ok main =>
      enter ctx world pending entryPoint none fun world pending =>
        invoke world pending entryPoint main []
  | other => ⟨world, .flow flow, other :: pending⟩

/-- Hands an error to what waits: nothing holds it up, and the end of a call takes its
frame away. -/
def unwind (world : World) (pending : List Pending) (error : RuntimeError) :
    Pending → Machine
  | .leave span =>
    let ⟨heap, frames, output⟩ := world
    ⟨⟨heap, frames.pop, output⟩, .fail (span.elim error error.locate), pending⟩
  | _ => ⟨world, .fail error, pending⟩

/-- Asks the host, whose answer is that of a new stamp; the settings say what a fault
becomes. -/
def callNative (ctx : Context) (world : World) (pending : List Pending) (name : String)
    (args : List Value) : Machine :=
  let ⟨heap, frames, output⟩ := world
  let (stamp, heap) := heap.draw
  match Native.dispatch ctx.natives (ctx.host.answers stamp) name args with
  | .ok value => ⟨⟨heap, frames, output⟩, .value value, pending⟩
  | .error fault =>
    match ctx.settings.faultPolicy with
    | .value => ⟨⟨heap, frames, output⟩, .value (.fault stamp fault), pending⟩
    | .error =>
      failAt ⟨heap, frames, output⟩ pending (.nativeFault name fault.message) none

/-- One transition. -/
def step (ctx : Context) : Machine → Machine
  | ⟨world, .eval expr env, pending⟩ => evaluate ctx world pending env expr
  | ⟨world, .exec stmt env, pending⟩ => execute ctx world pending env stmt
  | ⟨world, .native name args, pending⟩ => callNative ctx world pending name args
  | ⟨world, .value value, next :: pending⟩ => receive ctx world pending value next
  | ⟨world, .flow flow, next :: pending⟩ => proceed ctx world pending flow next
  | ⟨world, .fail error, next :: pending⟩ => unwind world pending error next
  | ⟨world, control, []⟩ => ⟨world, control, []⟩

/-- A final state stays as it is. -/
theorem step_of_outcome? {ctx : Context} {m : Machine}
    {o : Except RuntimeError (Option Value)} (h : m.outcome? = some o) :
    step ctx m = m := by
  unfold outcome? at h
  split at h <;> first | rfl | cases h

end Treewalk.Machine
