import Treewalk.Proofs.Machine.Growth

/-!
# Machines in step

Two machines may go through the same states except for their frames. What a machine does
looks at its frames in few places: their number is held against the limit of calls, and
a name is looked up in the top frame when a variable is read, when it is assigned and
when a call by name is about to be made. Everything else puts frames on, takes them off
or puts values into the top one, and does so to both machines alike.

A `FrameRelation` is a relation between frames that these operations keep. Machines
whose frames are so related and which agree in all else are `InStep`; they stay so for
as long as their lookups agree (`Machine.LooksAlike`), whether or not both of them look
at frames (`Context.Peers`).

Nor does a machine look at what was printed before, or at the entries below its own: it
adds to the one and stops at the other. So the second machine may have more of both
(`Over`).

`Over.step` is the result, assembled from one lemma per function of the machine;
`InStep.step` is the case of nothing more.
-/

namespace Treewalk

variable {ctx ctx' : Context} {rel : FrameRelation}

/-- The contexts differ in where names are looked for at most. -/
structure Context.Peers (ctx ctx' : Context) : Prop where
  settings : ctx.settings = ctx'.settings
  natives : ctx.natives = ctx'.natives
  resolution : ctx.resolution = ctx'.resolution
  host : ctx.host = ctx'.host

/-- A relation between frames that everything done to both alike keeps. -/
structure FrameRelation where
  Rel : Frames → Frames → Prop
  depth : ∀ {frames frames' : Frames}, Rel frames frames' → frames.depth = frames'.depth
  push : ∀ {frames frames' : Frames}, Rel frames frames' → ∀ name,
    Rel (frames.push name) (frames'.push name)
  pop : ∀ {frames frames' : Frames}, Rel frames frames' → Rel frames.pop frames'.pop
  add : ∀ {frames frames' : Frames}, Rel frames frames' → ∀ name value,
    Rel (frames.add name value) (frames'.add name value)
  addAll : ∀ {frames frames' : Frames}, Rel frames frames' → ∀ entries,
    Rel (frames.addAll entries) (frames'.addAll entries)

/-- The states agree but for their frames, which are related, and the second one has
more printed before and entries below. -/
inductive Over (rel : FrameRelation) (before : String) (low : List Pending) : Machine →
  Machine → Prop
  | mk {heap : Heap} {output : String} {control : Control} {pending : List Pending}
      {frames frames' : Frames} (related : rel.Rel frames frames') :
      Over rel before low ⟨⟨heap, frames, output⟩, control, pending⟩
        ⟨⟨heap, frames', before ++ output⟩, control, pending ++ low⟩

/-- The states agree in all but their frames, which are related. -/
inductive InStep (rel : FrameRelation) : Machine → Machine → Prop
  | mk {heap : Heap} {output : String} {control : Control} {pending : List Pending}
      {frames frames' : Frames} (related : rel.Rel frames frames') :
      InStep rel ⟨⟨heap, frames, output⟩, control, pending⟩
        ⟨⟨heap, frames', output⟩, control, pending⟩

namespace InStep

variable {rel : FrameRelation} {m m' : Machine}

theorem control (h : InStep rel m m') : m.control = m'.control := by
  obtain ⟨related⟩ := h
  rfl

theorem pending (h : InStep rel m m') : m.pending = m'.pending := by
  obtain ⟨related⟩ := h
  rfl

theorem related (h : InStep rel m m') : rel.Rel m.world.frames m'.world.frames := by
  obtain ⟨related⟩ := h
  exact related

/-- Nothing more is printed, and no entry is below. -/
theorem iff_over : InStep rel m m' ↔ Over rel "" [] m m' := by
  constructor
  · intro h
    obtain @⟨heap, output, control, pending, frames, frames', related⟩ := h
    have hover := @Over.mk rel "" [] heap output control pending frames frames' related
    rwa [String.empty_append, List.append_nil] at hover
  · intro h
    obtain ⟨related⟩ := h
    rw [String.empty_append, List.append_nil]
    exact .mk related

end InStep

namespace Machine

/-! ## Lookups -/

/-- Both machines are about to fail to assign, for the same reason, or to assign in the
same scope and in frames that are related afterwards. -/
def AssignsAlike (rel : FrameRelation) (ctx ctx' : Context) (world world' : World)
    (name : String) (id : NodeId) (env : ScopeId) (value : Value) : Prop :=
  (∃ cause, ctx.slots world name id env = .error cause ∧
    ctx'.slots world' name id env = .error cause) ∨ ∃ frame frame' scope,
    ctx.slots world name id env = .ok ⟨frame, scope⟩ ∧
      ctx'.slots world' name id env = .ok ⟨frame', scope⟩ ∧
      rel.Rel (if frame then world.frames.add name value else world.frames)
        (if frame' then world'.frames.add name value else world'.frames)

/-- The world in which a call with these arguments is made. -/
def withArguments (world : World) (args : List (Expr × Value)) : World :=
  ⟨world.heap, world.frames.addAll (namedArguments args), world.output⟩

/-- What the machines are about to look up in their frames, they find alike. -/
structure LooksAlike (rel : FrameRelation) (ctx ctx' : Context) (m m' : Machine) :
  Prop where
  var : ∀ span id name env, m.control = .eval (.var span id name) env →
    ctx.read m.world name id env = ctx'.read m'.world name id env
  assign : ∀ value span id name env rest, m.control = .value value →
    m.pending = .assign span id name env :: rest →
    AssignsAlike rel ctx ctx' m.world m'.world name id env value
  callee : ∀ value call done current rest span id, m.control = .value value →
    m.pending = .argument call done current [] :: rest → call.callee = .named span id →
    ctx.read (withArguments m.world ((current, value) :: done).reverse) call.name id
      call.env = ctx'.read (withArguments m'.world ((current, value) :: done).reverse)
      call.name id call.env

private theorem read_eq_of_none (hpeers : ctx.Peers ctx') {heap : Heap}
    {frames frames' : Frames} {output output' : String} {name : String}
    (hnone : frames.get? name = none) (hnone' : frames'.get? name = none) (id : NodeId)
    (env : ScopeId) :
    ctx.read ⟨heap, frames, output⟩ name id env =
      ctx'.read ⟨heap, frames', output'⟩ name id env := by
  have hvalue : ctx.frameValue? ⟨heap, frames, output⟩ name = none := by
    unfold Context.frameValue?
    split
    · exact hnone
    · rfl
  have hvalue' : ctx'.frameValue? ⟨heap, frames', output'⟩ name = none := by
    unfold Context.frameValue?
    split
    · exact hnone'
    · rfl
  simp only [Context.read, hvalue, hvalue', hpeers.resolution]
  rfl

section Steps

variable {rel : FrameRelation} {ctx ctx' : Context} {heap : Heap}
  {before output : String} {frames frames' : Frames} {pending low : List Pending}
  {env : ScopeId} (hrel : rel.Rel frames frames')

include hrel

/-! ## Calls -/

private theorem over_answer {span : Option Span} (result : Except Cause Value) :
    Over rel before low (answer ⟨heap, frames, output⟩ pending span result)
      (answer ⟨heap, frames', before ++ output⟩ (pending ++ low) span result) := by
  cases result with
  | ok value => exact .mk hrel
  | error cause => exact .mk hrel

private theorem over_construct (cls : Class) (args : List Value) :
    Over rel before low (construct ⟨heap, frames, output⟩ pending cls args)
      (construct ⟨heap, frames', before ++ output⟩ (pending ++ low) cls args) := by
  simp only [construct]
  cases cls.findMethod? Class.initializer with
  | none => exact .mk hrel
  | some init => exact .mk hrel

private theorem over_invoke (name : String) (callee : Value) (args : List Value) :
    Over rel before low (invoke ⟨heap, frames, output⟩ pending name callee args)
      (invoke ⟨heap, frames', before ++ output⟩ (pending ++ low) name callee args) := by
  simp only [invoke]
  cases callee.callable? with
  | none => exact .mk hrel
  | some callable =>
    by_cases harity : args.length = callable.arity
    · simp only [harity, if_true]
      cases callable with
      | function function => exact .mk hrel
      | cls cls => exact over_construct hrel cls args
      | native native => exact .mk hrel
    · simp only [harity, if_false]
      exact .mk hrel

private theorem over_complete (call : Call) (args : List (Expr × Value))
    (hread : ∀ span id, call.callee = .named span id →
      ctx.read (withArguments ⟨heap, frames, output⟩ args) call.name id call.env =
      ctx'.read (withArguments ⟨heap, frames', before ++ output⟩ args) call.name
      id call.env) :
    Over rel before low (complete ctx ⟨heap, frames, output⟩ pending call args)
      (complete ctx' ⟨heap, frames', before ++ output⟩ (pending ++ low) call args) := by
  have hadded := rel.addAll hrel (namedArguments args)
  simp only [withArguments] at hread
  simp only [complete]
  cases hcallee : call.callee with
  | found callee => exact over_invoke hadded _ _ _
  | native => exact .mk hadded
  | named span id =>
    simp only [hread span id hcallee]
    cases ctx'.read ⟨heap, frames'.addAll (namedArguments args), before ++ output⟩
      call.name id call.env with
    | ok callee => exact over_invoke hadded _ _ _
    | error cause => exact .mk hadded

private theorem over_nextArgument (call : Call) (done : List (Expr × Value))
    (rest : List Expr)
    (hread : rest = [] → ∀ span id, call.callee = .named span id →
      ctx.read (withArguments ⟨heap, frames, output⟩ done.reverse) call.name id
      call.env = ctx'.read (withArguments ⟨heap, frames', before ++ output⟩
        done.reverse) call.name id call.env) :
    Over rel before low (nextArgument ctx ⟨heap, frames, output⟩ pending call done rest)
      (nextArgument ctx' ⟨heap, frames', before ++ output⟩ (pending ++ low) call done
        rest) := by
  cases rest with
  | nil => exact over_complete hrel call done.reverse (hread rfl)
  | cons expr rest => exact .mk hrel

section

variable (hpeers : ctx.Peers ctx')

include hpeers

private theorem over_enter (name : String) (span : Option Span)
    {next next' : World → List Pending → Machine}
    (h : ∀ pending, Over rel before low (next ⟨heap, frames.push name, output⟩ pending)
      (next' ⟨heap, frames'.push name, before ++ output⟩ (pending ++ low))) :
    Over rel before low (enter ctx ⟨heap, frames, output⟩ pending name span next)
      (enter ctx' ⟨heap, frames', before ++ output⟩ (pending ++ low) name span
        next') := by
  simp only [enter, hpeers.settings, rel.depth hrel]
  by_cases hdeep : frames'.depth > ctx'.settings.maxCallDepth
  · rw [if_pos hdeep, if_pos hdeep]
    exact .mk hrel
  · rw [if_neg hdeep, if_neg hdeep]
    exact h (.leave span :: pending)

/-- A call without arguments looks its name up in a frame that is still empty. -/
theorem over_startCall (call : Call) (args : List Expr) :
    Over rel before low (startCall ctx ⟨heap, frames, output⟩ pending call args)
      (startCall ctx' ⟨heap, frames', before ++ output⟩ (pending ++ low) call
        args) := by
  refine over_enter hrel hpeers call.name _ fun _ => ?_
  refine over_nextArgument (rel.push hrel call.name) call [] args fun _ span id _ => ?_
  exact read_eq_of_none hpeers rfl rfl id call.env

/-! ## Expressions and statements -/

private theorem over_evaluateCall (span : Span) (id : NodeId) (callee : Expr)
    (args : List Expr) :
    Over rel before low
      (evaluateCall ctx ⟨heap, frames, output⟩ pending env span id callee args)
      (evaluateCall ctx' ⟨heap, frames', before ++ output⟩ (pending ++ low) env span id
        callee args) := by
  cases callee with
  | get access object name => exact .mk hrel
  | super access method =>
    have hsuper : World.superMethod ⟨heap, frames, output⟩ method.node env =
        World.superMethod ⟨heap, frames', before ++ output⟩ method.node env := rfl
    simp only [evaluateCall, hsuper]
    cases World.superMethod ⟨heap, frames', before ++ output⟩ method.node env with
    | error cause => exact .mk hrel
    | ok found => exact over_startCall hrel hpeers _ args
  | var access calleeId name =>
    simp only [evaluateCall, hpeers.resolution]
    exact over_startCall hrel hpeers _ args
  | _ => exact .mk hrel

private theorem over_evaluate (expr : Expr)
    (hread : ∀ span id name, expr = .var span id name → ctx.read ⟨heap, frames, output⟩
      name id env = ctx'.read ⟨heap, frames', before ++ output⟩ name id env) :
    Over rel before low (evaluate ctx ⟨heap, frames, output⟩ pending env expr)
      (evaluate ctx' ⟨heap, frames', before ++ output⟩ (pending ++ low) env expr) := by
  cases expr with
  | call span id callee args => exact over_evaluateCall hrel hpeers span id callee args
  | super span method =>
    have hsuper : World.superMethod ⟨heap, frames, output⟩ method.node env =
        World.superMethod ⟨heap, frames', before ++ output⟩ method.node env := rfl
    simp only [evaluate, hsuper]
    cases World.superMethod ⟨heap, frames', before ++ output⟩ method.node env with
    | error cause => exact .mk hrel
    | ok found => exact .mk hrel
  | this span =>
    simp only [evaluate]
    cases heap.lookup? env "this" with
    | none => exact .mk hrel
    | some receiver => exact .mk hrel
  | var span id name =>
    simp only [evaluate, hread span id name rfl]
    exact over_answer hrel _
  | _ => exact .mk hrel

omit hpeers in
private theorem over_declareClass (decl : ClassDecl) (superclass : Option Class) :
    Over rel before low
      (declareClass ⟨heap, frames, output⟩ pending env decl superclass)
      (declareClass ⟨heap, frames', before ++ output⟩ (pending ++ low) env decl
        superclass) :=
  .mk (rel.add hrel _ _)

private theorem over_execute (stmt : Stmt) :
    Over rel before low (execute ctx ⟨heap, frames, output⟩ pending env stmt)
      (execute ctx' ⟨heap, frames', before ++ output⟩ (pending ++ low) env stmt) := by
  cases stmt with
  | classDecl span decl =>
    simp only [execute]
    cases decl.superclass with
    | none => exact over_declareClass hrel decl none
    | some superclass => exact .mk hrel
  | print span newline operand => cases operand <;> exact .mk hrel
  | ret span operand => cases operand <;> exact .mk hrel
  | brk span =>
    simp only [execute, hpeers.settings]
    exact .mk hrel
  | var span name init =>
    cases init with
    | none => exact .mk (rel.add hrel _ _)
    | some init => exact .mk hrel
  | _ => exact .mk hrel

omit hpeers in
private theorem over_printValue (newline : Bool) (value : Value) :
    Over rel before low (printValue ⟨heap, frames, output⟩ pending newline value)
      (printValue ⟨heap, frames', before ++ output⟩ (pending ++ low) newline
        value) := by
  have houtput :
      (if newline then (before ++ output ++ value.text).push '\n'
        else before ++ output ++ value.text) =
      before ++ (if newline then (output ++ value.text).push '\n'
        else output ++ value.text) := by
    cases newline with
    | true => simp only [if_true, String.append_assoc, String.push_eq_append]
    | false => simp only [Bool.false_eq_true, if_false, String.append_assoc]
  by_cases hprintable : value.isPrintable = true
  · simp only [printValue, hprintable, if_true, houtput]
    exact .mk hrel
  · simp only [printValue, hprintable, Bool.false_eq_true, if_false]
    exact .mk hrel

private theorem over_callNative (name : String) (args : List Value) :
    Over rel before low (callNative ctx ⟨heap, frames, output⟩ pending name args)
      (callNative ctx' ⟨heap, frames', before ++ output⟩ (pending ++ low) name
        args) := by
  simp only [callNative, hpeers.natives, hpeers.host, hpeers.settings]
  cases Native.dispatch ctx'.natives (ctx'.host.answers heap.draw.1) name args with
  | ok value => exact .mk hrel
  | error fault =>
    cases ctx'.settings.faultPolicy with
    | value => exact .mk hrel
    | error => exact .mk hrel

end

/-! ## Outcomes -/

omit hrel in
private theorem over_assign {value : Value} {span : Span} {id : NodeId} {name : String}
    (h : AssignsAlike rel ctx ctx' ⟨heap, frames, output⟩
      ⟨heap, frames', before ++ output⟩ name id env value)
    (hrel : rel.Rel frames frames') :
    Over rel before low
      (receive ctx ⟨heap, frames, output⟩ pending value (.assign span id name env))
      (receive ctx' ⟨heap, frames', before ++ output⟩ (pending ++ low) value
        (.assign span id name env)) := by
  rcases h
    with ⟨cause, hslots, hslots'⟩ | ⟨frame, frame', scope, hslots, hslots', hrel'⟩
  · simp only [receive, hslots, hslots']
    exact .mk hrel
  · simp only [receive, hslots, hslots', World.assign]
    cases scope with
    | none => exact .mk hrel'
    | some scope => exact .mk hrel'

private theorem over_receive (hpeers : ctx.Peers ctx') (value : Value) (next : Pending)
    (hassign : ∀ span id name env, next = .assign span id name env →
      AssignsAlike rel ctx ctx' ⟨heap, frames, output⟩ ⟨heap, frames', before ++ output⟩
      name id env value)
    (hcallee : ∀ call done current span id, next = .argument call done current [] →
      call.callee = .named span id →
      ctx.read (withArguments ⟨heap, frames, output⟩ ((current, value) :: done).reverse)
      call.name id call.env = ctx'.read (withArguments ⟨heap, frames', before ++ output⟩
        ((current, value) :: done).reverse) call.name id call.env) :
    Over rel before low (receive ctx ⟨heap, frames, output⟩ pending value next)
      (receive ctx' ⟨heap, frames', before ++ output⟩ (pending ++ low) value next) := by
  have hproperty : ∀ name, World.property ⟨heap, frames, output⟩ value name =
      World.property ⟨heap, frames', before ++ output⟩ value name := fun _ => rfl
  cases next with
  | assign span id name env => exact over_assign (hassign span id name env rfl) hrel
  | binaryRight span left op => exact over_answer hrel _
  | logical op right env =>
    by_cases htruthy : value.isTruthy = true
    · cases op with
      | or =>
        simp only [receive, htruthy, if_true]
        exact .mk hrel
      | and =>
        simp only [receive, htruthy, if_true]
        exact .mk hrel
    · cases op with
      | or =>
        simp only [receive, htruthy, Bool.false_eq_true, if_false]
        exact .mk hrel
      | and =>
        simp only [receive, htruthy, Bool.false_eq_true, if_false]
        exact .mk hrel
  | unary span op => exact over_answer hrel _
  | get span name =>
    simp only [receive, hproperty]
    cases World.property ⟨heap, frames', before ++ output⟩ value name with
    | error cause => exact .mk hrel
    | ok found =>
      obtain ⟨property, inst⟩ := found
      cases property <;> exact .mk hrel
  | setObject span name operand env => cases value <;> exact .mk hrel
  | receiver span access name args env =>
    simp only [receive, hproperty]
    cases World.property ⟨heap, frames', before ++ output⟩ value name with
    | error cause => exact .mk hrel
    | ok found =>
      obtain ⟨property, inst⟩ := found
      cases property <;> exact over_startCall hrel hpeers _ args
  | argument call done current rest =>
    refine over_nextArgument hrel call _ rest fun hrest span id hnamed => ?_
    subst hrest
    exact hcallee call done current span id rfl hnamed
  | leave span => exact .mk (rel.pop hrel)
  | declare name env => exact .mk (rel.add hrel _ _)
  | branch onTrue onFalse env =>
    simp only [receive]
    by_cases htruthy : value.isTruthy = true
    · simp only [htruthy, if_true]
      exact .mk hrel
    · simp only [htruthy, Bool.false_eq_true, if_false]
      cases onFalse <;> exact .mk hrel
  | loopTest cond body env =>
    simp only [receive]
    by_cases htruthy : value.isTruthy = true
    · simp only [htruthy, if_true]
      exact .mk hrel
    · simp only [htruthy, Bool.false_eq_true, if_false]
      exact .mk hrel
  | print newline => exact over_printValue hrel newline value
  | superclass span decl env =>
    cases value with
    | cls superclass => exact over_declareClass hrel decl (some superclass)
    | _ => exact .mk hrel
  | _ => exact .mk hrel

private theorem over_proceed (hpeers : ctx.Peers ctx') (flow : Flow) (next : Pending) :
    Over rel before low (proceed ctx ⟨heap, frames, output⟩ pending flow next)
      (proceed ctx' ⟨heap, frames', before ++ output⟩ (pending ++ low) flow next) := by
  cases next with
  | seq rest env => cases flow <;> cases rest <;> exact .mk hrel
  | loopBody cond body env => cases flow <;> exact .mk hrel
  | result function =>
    have hresult : resultOf ⟨heap, frames, output⟩ function flow =
        resultOf ⟨heap, frames', before ++ output⟩ function flow := rfl
    simp only [proceed, hresult]
    exact over_answer hrel _
  | enterMain =>
    have hmain : World.readGlobal ⟨heap, frames, output⟩ entryPoint globalScope =
        World.readGlobal ⟨heap, frames', before ++ output⟩ entryPoint globalScope := rfl
    simp only [proceed, hmain]
    cases World.readGlobal ⟨heap, frames', before ++ output⟩ entryPoint globalScope with
    | error cause => exact .mk hrel
    | ok main =>
      exact over_enter hrel hpeers entryPoint none fun _ =>
        over_invoke (rel.push hrel entryPoint) entryPoint main []
  | _ => exact .mk hrel

private theorem over_unwind (error : RuntimeError) (next : Pending) :
    Over rel before low (unwind ⟨heap, frames, output⟩ pending error next)
      (unwind ⟨heap, frames', before ++ output⟩ (pending ++ low) error next) := by
  cases next with
  | leave span => exact .mk (rel.pop hrel)
  | _ => exact .mk hrel

end Steps

end Machine

/-! ## All transitions -/

/-- Until the first machine has ended above entries, machines that find alike what they
look up stay related. -/
theorem Over.step {before : String} {low : List Pending} {m m' : Machine}
    (h : Over rel before low m m') (hpeers : ctx.Peers ctx')
    (hlooks : Machine.LooksAlike rel ctx ctx' m m')
    (hend : m.control.isOutcome = true → m.pending = [] → low = []) :
    Over rel before low (m.step ctx) (m'.step ctx') := by
  obtain @⟨heap, output, control, pending, frames, frames', hrel⟩ := h
  cases control with
  | eval expr env =>
    refine Machine.over_evaluate hrel hpeers expr fun span id name hvar => ?_
    exact hlooks.var span id name env (by rw [hvar])
  | exec stmt env => exact Machine.over_execute hrel hpeers stmt
  | native name args => exact Machine.over_callNative hrel hpeers name args
  | value value =>
    cases pending with
    | nil =>
      obtain rfl := hend rfl rfl
      exact .mk hrel
    | cons next pending =>
      refine Machine.over_receive hrel hpeers value next ?_ ?_
      · intro span id name env hnext
        exact hlooks.assign value span id name env pending rfl (by rw [hnext])
      · intro call done current span id hnext hnamed
        exact hlooks.callee value call done current pending span id rfl
          (by rw [hnext]) hnamed
  | flow flow =>
    cases pending with
    | nil =>
      obtain rfl := hend rfl rfl
      exact .mk hrel
    | cons next pending => exact Machine.over_proceed hrel hpeers flow next
  | fail error =>
    cases pending with
    | nil =>
      obtain rfl := hend rfl rfl
      exact .mk hrel
    | cons next pending => exact Machine.over_unwind hrel error next

/-- Machines in step that find alike what they look up stay in step. -/
theorem InStep.step {m m' : Machine} (h : InStep rel m m') (hpeers : ctx.Peers ctx')
    (hlooks : Machine.LooksAlike rel ctx ctx' m m') :
    InStep rel (m.step ctx) (m'.step ctx') :=
  InStep.iff_over.2 ((InStep.iff_over.1 h).step hpeers hlooks fun _ _ => rfl)

end Treewalk
