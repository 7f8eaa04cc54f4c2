import Treewalk.Proofs.Machine.Contents
import Treewalk.Proofs.Machine.Growth
import Treewalk.Proofs.Machine.Writes
import Treewalk.Proofs.Scope.Standing

/-!
# What runs keep of the parts of their states

Many invariants ask something of each part of a state on its own: of its world, of the
code that is still to run, of the values, names and places that it holds. A `Regime` is
such a list of demands. What is asked may depend on the scopes that were made so far and
what they were made for, and it is asked of the entries above given ones only.

The operations of the machine meet the demands (`Regime.Upheld`) if what they make of
parts that meet them meets them too. Then every transition leads from states that the
regime governs to such states: `Regime.Governs.step`, assembled from one lemma for each
function of the machine. So an invariant of this kind is proved by looking at the
operations, not at the transitions.
-/

namespace Treewalk

open List

variable {name : String} {control : Control}

/-- The names that a statement binds itself, at once or when its operand has a value. -/
def Stmt.binds : Stmt → List String
  | .funcDecl _ decl => [decl.name.node]
  | .classDecl _ decl => [decl.name.node]
  | .var _ name _ => [name.node]
  | _ => []

private theorem Stmt.mem_binds_of_bound? {stmt : Stmt} (h : stmt.bound? = some name) :
    name ∈ stmt.binds := by
  unfold Stmt.bound? at h
  split at h
  · cases h
    exact mem_singleton_self _
  · cases h
    exact mem_singleton_self _
  · split at h <;> cases h
    exact mem_singleton_self _
  · cases h

/-- The state is about to carry out a class declaration, the superclass being known. -/
inductive Machine.DeclaresClass (env : ScopeId) (decl : ClassDecl) : Option Class →
  Machine → Prop
  | root {world : World} {span : Span} {pending : List Pending}
      (h : decl.superclass = none) :
      DeclaresClass env decl none ⟨world, .exec (.classDecl span decl) env, pending⟩
  | derived {world : World} {span : Span} {superclass : Class}
      {pending : List Pending} :
      DeclaresClass env decl (some superclass)
        ⟨world, .value (.cls superclass), .superclass span decl env :: pending⟩

/-- What is asked of the parts of a state. -/
structure Regime where
  /-- The entries of which nothing is asked, beneath the others. -/
  base : List Pending
  /-- Of the world, with that many calls to end. -/
  world : Nat → List Origin → World → Prop
  /-- Of an expression that is evaluated in an environment. -/
  expr : History → ScopeId → Expr → Prop
  /-- Of a statement that is executed in an environment. -/
  stmt : History → ScopeId → Stmt → Prop
  value : History → Value → Prop
  scope : ScopeId → Prop
  declares : ScopeId → String → Prop
  assigns : ScopeId → String → Prop
  capability : String → Prop
  cause : Cause → Prop
  place : Span → Prop
  /-- Of a class declaration whose superclass is evaluated. -/
  heir : ClassDecl → Prop
  /-- Of the declaration of a class in an environment. -/
  made : World → ScopeId → ClassDecl → Option Class → Prop

namespace Regime

open Machine

variable (R : Regime)

/-! ## States -/

/-- What a call in preparation keeps meets the demands. -/
def HasCall (log : History) (call : Call) : Prop :=
  R.place call.span ∧ R.scope call.env ∧
    match call.callee with
    | .found value => R.value log value
    | .native => R.capability call.name
    | .named span _ => R.place span

/-- What the machine is about to work with meets the demands. -/
def HasControl (log : History) : Control → Prop
  | .eval expr env => R.expr log env expr
  | .exec stmt env => R.stmt log env stmt
  | .native name args => R.capability name ∧ ∀ arg ∈ args, R.value log arg
  | .value value => R.value log value
  | .flow (.ret value) => R.value log value
  | .flow _ => True
  | .fail error => R.cause error.cause ∧ ∀ span ∈ error.span, R.place span

/-- What an entry keeps meets the demands. -/
def HasEntry (log : History) : Pending → Prop
  | .assign span _ name env => R.place span ∧ R.scope env ∧ R.assigns env name
  | .binaryLeft span _ right env => R.place span ∧ R.expr log env right
  | .binaryRight span left _ => R.place span ∧ R.value log left
  | .logical _ right env => R.expr log env right
  | .unary span _ => R.place span
  | .get span _ => R.place span
  | .setObject span _ value env => R.place span ∧ R.expr log env value
  | .setField inst _ => R.value log (.inst inst)
  | .receiver span access _ args env =>
    R.place span ∧ R.place access ∧ R.scope env ∧ ∀ arg ∈ args, R.expr log env arg
  | .argument call done _ rest =>
    R.HasCall log call ∧ (∀ arg ∈ done, R.value log arg.2) ∧ ∀ arg ∈ rest,
      R.expr log call.env arg
  | .leave span => ∀ place ∈ span, R.place place
  | .result function => R.value log (.callable (.function function))
  | .construct inst => R.value log (.inst inst)
  | .seq rest env => ∀ stmt ∈ rest, R.stmt log env stmt
  | .declare name env => R.declares env name
  | .branch onTrue onFalse env =>
    R.stmt log env onTrue ∧ ∀ stmt ∈ onFalse, R.stmt log env stmt
  | .loopTest cond body env => R.expr log env cond ∧ R.stmt log env body
  | .loopBody cond body env => R.expr log env cond ∧ R.stmt log env body
  | .superclass span decl env =>
    R.place span ∧ R.heir decl ∧ ∃ place, R.stmt log env (.classDecl place decl)
  | _ => True

/-- What waits above the base meets the demands. -/
def Waits (log : History) (pending : List Pending) : Prop :=
  ∃ above, pending = above ++ R.base ∧ ∀ entry ∈ above, R.HasEntry log entry

/-- All parts of the state meet the demands. -/
structure Governs (origins : List Origin) (m : Machine) : Prop where
  world : R.world (leaves m.pending) origins m.world
  control : R.HasControl ⟨m.world.heap, origins⟩ m.control
  pending : R.Waits ⟨m.world.heap, origins⟩ m.pending

/-! ## Changes -/

/-- What met the demands still meets them. -/
structure Later (log log' : History) : Prop where
  value : ∀ {value}, R.value log value → R.value log' value
  expr : ∀ {env expr}, R.expr log env expr → R.expr log' env expr
  stmt : ∀ {env stmt}, R.stmt log env stmt → R.stmt log' env stmt

/-- A world that makes scopes for these becomes one that meets the demands. -/
structure Change (depth : Nat) (origins : List Origin) (old : World)
    (opened : List Origin) (new : World) : Prop where
  world : R.world depth (origins ++ opened) new
  later : R.Later ⟨old.heap, origins⟩ ⟨new.heap, origins ++ opened⟩

/-- The operations of the machine meet the demands. -/
structure Upheld (ctx : Context) : Prop where
  part : ∀ {log env expr part}, R.expr log env expr → part ∈ expr.parts →
    R.expr log env part
  span : ∀ {log env expr}, R.expr log env expr → R.place expr.span
  sight : ∀ {log env expr}, R.expr log env expr → R.scope env
  target : ∀ {log env span id name value}, R.expr log env (.assign span id name value) →
    R.assigns env name
  marked : ∀ {log env span id access calleeId name args},
    R.expr log env (.call span id (.var access calleeId name) args) →
      ctx.resolution.isNativeCall id = true → R.capability name
  operand : ∀ {log env stmt expr}, R.stmt log env stmt → expr ∈ stmt.operands →
    R.expr log env expr
  branch : ∀ {log env stmt part}, R.stmt log env stmt → part ∈ stmt.branches →
    R.stmt log env part
  name : ∀ {log env stmt name}, R.stmt log env stmt → name ∈ stmt.binds →
    R.declares env name
  heir : ∀ {decl superclass}, decl.superclass = some superclass → R.heir decl
  plain : ∀ {log value}, value.isComparable = true → R.value log value
  wrapped : ∀ {log cls}, R.value log (.callable (.cls cls)) → R.value log (.cls cls)
  native : ∀ {log native}, R.value log (.callable (.native native)) →
    R.capability native.name
  fault : ∀ {log stamp fault}, ctx.settings.faultPolicy = .value →
    R.value log (.fault stamp fault)
  raised : ∀ {cause}, cause.isFault = false → R.cause cause
  failure : ∀ {name message}, ctx.settings.faultPolicy = .error →
    R.cause (.nativeFault name message)
  read : ∀ {depth origins world env name id value}, R.world depth origins world →
    R.scope env → ctx.read world name id env = .ok value →
    R.value ⟨world.heap, origins⟩ value
  main : ∀ {depth origins world value}, R.world depth origins world →
    world.readGlobal entryPoint globalScope = .ok value →
      R.value ⟨world.heap, origins⟩ value
  this : ∀ {depth origins world env value}, R.world depth origins world → R.scope env →
    world.heap.lookup? env "this" = some value → R.value ⟨world.heap, origins⟩ value
  receiver : ∀ {depth origins world function value}, R.world depth origins world →
    R.value ⟨world.heap, origins⟩ (.callable (.function function)) →
      world.heap.getAt function.closure 0 "this" = .ok value →
        R.value ⟨world.heap, origins⟩ value
  field : ∀ {depth origins world inst name value}, R.world depth origins world →
    R.value ⟨world.heap, origins⟩ (.inst inst) → (world.heap.fieldsOf inst).get? name =
      some value → R.value ⟨world.heap, origins⟩ value
  push : ∀ {depth origins world} name, R.world depth origins world →
    R.world (depth + 1) origins ⟨world.heap, world.frames.push name, world.output⟩
  pop : ∀ {depth origins world}, leaves R.base ≤ depth →
    R.world (depth + 1) origins world →
    R.world depth origins ⟨world.heap, world.frames.pop, world.output⟩
  print : ∀ {depth origins world} output, R.world depth origins world →
    R.world depth origins ⟨world.heap, world.frames, output⟩
  arguments : ∀ {depth origins world args}, R.world depth origins world →
    (∀ arg ∈ args, R.value ⟨world.heap, origins⟩ arg.2) →
      R.world depth origins ⟨world.heap, world.frames.addAll (namedArguments args),
        world.output⟩
  draw : ∀ {depth origins world}, R.world depth origins world →
    R.Change depth origins world [] ⟨world.heap.draw.2, world.frames, world.output⟩
  declare : ∀ {depth origins world env name value}, R.world depth origins world →
    R.declares env name → R.value ⟨world.heap, origins⟩ value →
    R.Change depth origins world []
      ⟨world.heap.define env name value, world.frames.add name value, world.output⟩
  assign : ∀ {depth origins world env name id slots value},
    R.world depth origins world → R.scope env → R.assigns env name →
    ctx.slots world name id env = .ok slots → R.value ⟨world.heap, origins⟩ value →
      R.Change depth origins world [] (world.assign slots name value)
  setField : ∀ {depth origins world inst value} name, R.world depth origins world →
    R.value ⟨world.heap, origins⟩ (.inst inst) → R.value ⟨world.heap, origins⟩ value →
      R.Change depth origins world []
        ⟨world.heap.setField inst name value, world.frames, world.output⟩
  block : ∀ {depth origins world env span body}, R.world depth origins world →
    R.stmt ⟨world.heap, origins⟩ env (.block span body) →
      R.Change depth origins world [.block span body] ⟨(world.heap.makeChild env []).2,
        world.frames, world.output⟩ ∧ ∀ stmt ∈ body,
        R.stmt ⟨(world.heap.makeChild env []).2, origins ++ [.block span body]⟩
        world.heap.scopes.size stmt
  function : ∀ {depth origins world env span decl}, R.world depth origins world →
    R.stmt ⟨world.heap, origins⟩ env (.funcDecl span decl) →
      R.Change depth origins world [] ⟨world.heap.draw.2.define env decl.name.node
        (.callable (.function (world.heap.makeFunction decl env false).1)),
          world.frames, world.output⟩
  declareClass : ∀ {depth origins world env span decl superclass},
    R.world depth origins world → R.stmt ⟨world.heap, origins⟩ env
    (.classDecl span decl) → (superclass = none → decl.superclass = none) →
      (∀ cls ∈ superclass, R.heir decl ∧ R.value ⟨world.heap, origins⟩ (.cls cls)) →
        R.made world env decl superclass →
        R.Change depth origins world (superclass.toList.map fun _ => .superclass decl)
          (declareClass world [] env decl superclass).world
  call : ∀ {depth origins world function args}, R.world depth origins world →
    R.value ⟨world.heap, origins⟩ (.callable (.function function)) →
      (∀ arg ∈ args, R.value ⟨world.heap, origins⟩ arg) →
        R.Change depth origins world [.call function.decl]
          (callFunction world [] function args).world ∧ ∀ stmt ∈ function.decl.body,
          R.stmt ⟨(callFunction world [] function args).world.heap,
            origins ++ [.call function.decl]⟩ world.heap.scopes.size stmt
  construct : ∀ {depth origins world} cls, R.world depth origins world →
    R.value ⟨world.heap, origins⟩ (.cls cls) → R.Change depth origins world []
    ⟨(world.heap.makeInstance cls).2, world.frames, world.output⟩ ∧
      R.value ⟨(world.heap.makeInstance cls).2, origins ++ []⟩
        (.inst (world.heap.makeInstance cls).1)
  bind : ∀ {depth origins world inst name method}, R.world depth origins world →
    R.value ⟨world.heap, origins⟩ (.inst inst) →
      inst.cls.findMethod? name = some method → R.Change depth origins world
      [.receiver method.decl] (world.bind method (.inst inst)).2 ∧
        R.value
          ⟨(world.bind method (.inst inst)).2.heap, origins ++ [.receiver method.decl]⟩
          (world.bind method (.inst inst)).1
  super : ∀ {depth origins world env span name method receiver},
    R.world depth origins world → R.expr ⟨world.heap, origins⟩ env (.super span name) →
    world.superMethod name.node env = .ok (method, receiver) →
      R.Change depth origins world [.receiver method.decl]
        (world.bind method receiver).2 ∧ R.value ⟨(world.bind method receiver).2.heap,
          origins ++ [.receiver method.decl]⟩ (world.bind method receiver).1

variable {R} {log log' : History} {origins opened : List Origin} {world : World}
  {pending : List Pending} {m : Machine} {ctx : Context} {env : ScopeId} {depth : Nat}

/-! ## What waits -/

theorem Later.call (h : R.Later log log') {call : Call} (hcall : R.HasCall log call) :
    R.HasCall log' call := by
  obtain ⟨span, name, callee, env⟩ := call
  refine ⟨hcall.1, hcall.2.1, ?_⟩
  cases callee with
  | found value => exact h.value hcall.2.2
  | _ => exact hcall.2.2

private theorem Later.entry (h : R.Later log log') {entry : Pending}
    (hentry : R.HasEntry log entry) : R.HasEntry log' entry := by
  cases entry with
  | binaryLeft span op right env => exact ⟨hentry.1, h.expr hentry.2⟩
  | binaryRight span left op => exact ⟨hentry.1, h.value hentry.2⟩
  | logical op right env => exact h.expr hentry
  | setObject span name value env => exact ⟨hentry.1, h.expr hentry.2⟩
  | setField inst name => exact h.value hentry
  | receiver span access name args env =>
    exact ⟨hentry.1, hentry.2.1, hentry.2.2.1, fun arg harg =>
      h.expr (hentry.2.2.2 arg harg)⟩
  | argument call done current rest =>
    exact ⟨h.call hentry.1, fun arg harg => h.value (hentry.2.1 arg harg),
      fun arg harg => h.expr (hentry.2.2 arg harg)⟩
  | result function => exact h.value hentry
  | construct inst => exact h.value hentry
  | seq rest env => exact fun stmt hstmt => h.stmt (hentry stmt hstmt)
  | branch onTrue onFalse env =>
    exact ⟨h.stmt hentry.1, fun stmt hstmt => h.stmt (hentry.2 stmt hstmt)⟩
  | loopTest cond body env => exact ⟨h.expr hentry.1, h.stmt hentry.2⟩
  | loopBody cond body env => exact ⟨h.expr hentry.1, h.stmt hentry.2⟩
  | superclass span decl env =>
    exact ⟨hentry.1, hentry.2.1, hentry.2.2.imp fun _ hstmt => h.stmt hstmt⟩
  | _ => exact hentry

private theorem Waits.later (h : R.Waits log pending) (hlater : R.Later log log') :
    R.Waits log' pending := by
  obtain ⟨above, rfl, habove⟩ := h
  exact ⟨above, rfl, fun entry hentry => hlater.entry (habove entry hentry)⟩

theorem Waits.push (h : R.Waits log pending) (entry : Pending)
    (hentry : R.HasEntry log entry) :
    R.Waits log (entry :: pending) := by
  obtain ⟨above, rfl, habove⟩ := h
  exact ⟨entry :: above, rfl, forall_mem_cons.2 ⟨hentry, habove⟩⟩

theorem waits_nil (hbase : R.base = []) : R.Waits log [] :=
  ⟨[], hbase.symm, forall_mem_nil _⟩

/-- Where nothing is left out, all that waits meets the demands. -/
theorem Waits.all (h : R.Waits log pending) (hbase : R.base = []) :
    ∀ entry ∈ pending, R.HasEntry log entry := by
  obtain ⟨above, rfl, habove⟩ := h
  rwa [hbase, append_nil]

private theorem Waits.leaves_le (h : R.Waits log pending) :
    leaves R.base ≤ leaves pending := by
  obtain ⟨above, rfl, -⟩ := h
  rw [leaves_append]
  exact Nat.le_add_left _ _

/-! ## Transitions -/

/-- All parts of the state meet the demands, the scopes being made for these. -/
def After (R : Regime) (origins opened : List Origin) (m : Machine) : Prop :=
  R.Governs (origins ++ opened) m

private theorem After.trans {more : List Origin}
    (h : R.After (origins ++ opened) more m) : R.After origins (opened ++ more) m := by
  rw [After, append_assoc] at h
  exact h

private theorem Change.after {next : World}
    (h : R.Change (leaves pending) origins world opened next)
    (hcontrol : R.HasControl ⟨next.heap, origins ++ opened⟩ control)
    (hpending : R.Waits ⟨world.heap, origins⟩ pending) :
    R.After origins opened ⟨next, control, pending⟩ :=
  ⟨h.world, hcontrol, hpending.later h.later⟩

theorem Change.none (h : R.world depth origins world) :
    R.Change depth origins world [] world := by
  refine ⟨?_, ?_⟩ <;> rw [append_nil]
  · exact h
  · exact ⟨id, id, id⟩

section Transitions

variable (hup : R.Upheld ctx) (hworld : R.world (leaves pending) origins world)
  (hpending : R.Waits ⟨world.heap, origins⟩ pending) {span : Option Span}
  {args : List Value} {value : Value}

include hworld hpending

theorem after_same (hcontrol : R.HasControl ⟨world.heap, origins⟩ control) :
    R.After origins [] ⟨world, control, pending⟩ := by
  rw [After, append_nil]
  exact ⟨hworld, hcontrol, hpending⟩

private theorem after_push {control : Control} {entry : Pending}
    (hentry : R.HasEntry ⟨world.heap, origins⟩ entry)
    (hcontrol : R.HasControl ⟨world.heap, origins⟩ control)
    (hleave : entry.isLeave = false) :
    R.After origins [] ⟨world, control, entry :: pending⟩ :=
  after_same ((leaves_cons_of_not_leave hleave pending).symm ▸ hworld)
    (hpending.push entry hentry) hcontrol

include hup

private theorem after_failAt {cause : Cause} (hcause : cause.isFault = false)
    (hspan : ∀ place ∈ span, R.place place) :
    R.After origins [] (failAt world pending cause span) :=
  after_same hworld hpending ⟨hup.raised hcause, hspan⟩

private theorem after_located {cause : Cause} (hcause : cause.isFault = false)
    {span : Span} (hspan : R.place span) :
    R.After origins [] (failAt world pending cause (some span)) :=
  after_failAt hup hworld hpending hcause fun _ hplace => Option.some.inj hplace ▸ hspan

private theorem after_answer (hspan : ∀ place ∈ span, R.place place)
    {result : Except Cause Value}
    (hresult : ∀ value, result = .ok value → R.value ⟨world.heap, origins⟩ value)
    (hcause : ∀ cause, result = .error cause → cause.isFault = false) :
    R.After origins [] (answer world pending span result) := by
  cases result with
  | error cause => exact after_failAt hup hworld hpending (hcause cause rfl) hspan
  | ok value => exact after_same hworld hpending (hresult value rfl)

/-! ### Calls -/

private theorem after_callFunction {function : Function}
    (hfunction : R.value ⟨world.heap, origins⟩ (.callable (.function function)))
    (hargs : ∀ arg ∈ args, R.value ⟨world.heap, origins⟩ arg) :
    R.After origins [.call function.decl]
      (callFunction world pending function args) := by
  obtain ⟨hchange, hbody⟩ := hup.call hworld hfunction hargs
  refine ⟨hchange.world, trivial, ?_⟩
  exact ((hpending.later hchange.later).push (.result function)
    (hchange.later.value hfunction)).push (.seq _ _) hbody

private theorem after_construct {cls : Class}
    (hcls : R.value ⟨world.heap, origins⟩ (.cls cls))
    (hargs : ∀ arg ∈ args, R.value ⟨world.heap, origins⟩ arg) : R.After origins
      (match cls.findMethod? Class.initializer with
        | none => []
        | some init => [.receiver init.decl, .call init.decl])
      (construct world pending cls args) := by
  obtain ⟨hmade, hinst⟩ := hup.construct cls hworld hcls
  unfold construct
  cases hinit : cls.findMethod? Class.initializer with
  | none => exact hmade.after hinst hpending
  | some init =>
    obtain ⟨hbound, hfunction⟩ := hup.bind hmade.world hinst hinit
    -- the instance waits beneath the body, and is handed on whatever the body gives
    have hready :
      R.world (leaves (.construct (world.heap.makeInstance cls).1 :: pending)) _ _ :=
      hbound.world
    have hwaits :=
      ((hpending.later hmade.later).later hbound.later).push (.construct _)
      (hbound.later.value hinst)
    have hcalled := after_callFunction hup hready hwaits hfunction fun arg harg =>
      hbound.later.value (hmade.later.value (hargs arg harg))
    exact hcalled.trans.trans

theorem after_invoke (name : String) {callee : Value}
    (hcallee : R.value ⟨world.heap, origins⟩ callee)
    (hargs : ∀ arg ∈ args, R.value ⟨world.heap, origins⟩ arg) :
    R.After origins (openedByInvoke callee args)
      (invoke world pending name callee args) := by
  unfold invoke openedByInvoke
  cases hcallable : callee.callable? with
  | none => exact after_failAt hup hworld hpending rfl nofun
  | some callable =>
    by_cases harity : args.length = callable.arity
    · simp only [harity, if_true]
      cases callable with
      | function function =>
        cases callee with
        | callable inner =>
          cases hcallable
          exact after_callFunction hup hworld hpending hcallee hargs
        | _ => cases hcallable
      | cls cls =>
        refine after_construct hup hworld hpending ?_ hargs
        cases callee with
        | callable inner =>
          cases hcallable
          exact hup.wrapped hcallee
        | cls inner =>
          cases hcallable
          exact hcallee
        | _ => cases hcallable
      | native native =>
        cases callee with
        | callable inner =>
          cases hcallable
          exact after_same hworld hpending ⟨hup.native hcallee, hargs⟩
        | _ => cases hcallable
    · simp only [harity, if_false]
      exact after_failAt hup hworld hpending rfl nofun

private theorem after_complete {call : Call}
    (hcall : R.HasCall ⟨world.heap, origins⟩ call) {args : List (Expr × Value)}
    (hargs : ∀ arg ∈ args, R.value ⟨world.heap, origins⟩ arg.2) :
    R.After origins (openedByComplete ctx world call args)
      (complete ctx world pending call args) := by
  obtain ⟨span, name, callee, env⟩ := call
  obtain ⟨-, hscope, hcallee⟩ := hcall
  have hadded := hup.arguments hworld hargs
  have hvalues : ∀ arg ∈ args.map (·.2), R.value ⟨world.heap, origins⟩ arg :=
    forall_mem_map.2 hargs
  unfold complete openedByComplete
  cases callee with
  | found callee => exact after_invoke hup hadded hpending _ hcallee hvalues
  | native => exact after_same hadded hpending ⟨hcallee, hvalues⟩
  | named access id =>
    simp only
    cases hread : ctx.read ⟨world.heap, world.frames.addAll (namedArguments args),
      world.output⟩ name id env with
    | ok callee =>
      exact after_invoke hup hadded hpending _ (hup.read hadded hscope hread) hvalues
    | error cause =>
      exact after_located hup hadded hpending
        (Cause.isFault_of_kind (Context.kind_of_read hread) rfl) hcallee

theorem after_nextArgument {call : Call} (hcall : R.HasCall ⟨world.heap, origins⟩ call)
    {done : List (Expr × Value)}
    (hdone : ∀ arg ∈ done, R.value ⟨world.heap, origins⟩ arg.2) {rest : List Expr}
    (hrest : ∀ arg ∈ rest, R.expr ⟨world.heap, origins⟩ call.env arg) :
    R.After origins (openedByArgument ctx world call done rest)
      (nextArgument ctx world pending call done rest) := by
  cases rest with
  | nil =>
    exact after_complete hup hworld hpending hcall fun arg harg =>
      hdone arg (mem_reverse.1 harg)
  | cons expr rest =>
    obtain ⟨hexpr, hrest⟩ := forall_mem_cons.1 hrest
    exact after_push hworld hpending ⟨hcall, hdone, hrest⟩ hexpr rfl

private theorem after_enter (name : String) (hspan : ∀ place ∈ span, R.place place)
    {next : World → List Pending → Machine} {opened : World → List Origin}
    (hnext : ∀ {frames : Frames} {pending : List Pending},
      R.world (leaves pending) origins ⟨world.heap, frames, world.output⟩ →
      R.Waits ⟨world.heap, origins⟩ pending →
      R.After origins (opened ⟨world.heap, frames, world.output⟩)
      (next ⟨world.heap, frames, world.output⟩ pending)) :
    R.After origins (openedByEnter ctx world name opened)
      (enter ctx world pending name span next) := by
  unfold enter openedByEnter
  split
  · exact after_failAt hup hworld hpending rfl hspan
  · exact hnext (leaves_cons_leave span pending ▸ hup.push name hworld)
      (hpending.push (.leave span) hspan)

private theorem after_startCall (call : Call)
    (hcall : R.HasCall ⟨world.heap, origins⟩ call) {args : List Expr}
    (hargs : ∀ arg ∈ args, R.expr ⟨world.heap, origins⟩ call.env arg) :
    R.After origins (openedByStart ctx world call args)
      (startCall ctx world pending call args) := by
  refine after_enter hup hworld hpending call.name
    (fun _ hplace => Option.some.inj hplace ▸ hcall.1) ?_
  exact fun hworld hpending => after_nextArgument hup hworld hpending hcall
    (forall_mem_nil _) hargs

/-! ### Expressions -/

theorem after_evaluateCall {span : Span} {id : NodeId} {callee : Expr}
    {args : List Expr}
    (hexpr : R.expr ⟨world.heap, origins⟩ env (.call span id callee args)) :
    R.After origins (openedByCall ctx world env span id callee args)
      (evaluateCall ctx world pending env span id callee args) := by
  have hspan := hup.span hexpr
  have hscope := hup.sight hexpr
  have hcallee : R.expr ⟨world.heap, origins⟩ env callee :=
    hup.part hexpr (by simp [Expr.parts, Expr.self_mem_parts])
  have hargs : ∀ arg ∈ args, R.expr ⟨world.heap, origins⟩ env arg := fun arg harg =>
    hup.part hexpr (by simp [Expr.parts, Expr.mem_listParts harg])
  cases callee with
  | get access object name =>
    refine after_push hworld hpending ⟨hspan, hup.span hcallee, hscope, hargs⟩ ?_ rfl
    exact hup.part hcallee (by simp [Expr.parts, Expr.self_mem_parts])
  | super access method =>
    simp only [evaluateCall, openedByCall]
    cases hsuper : world.superMethod method.node env with
    | error cause =>
      exact after_located hup hworld hpending
        (Cause.isFault_of_kind (World.kind_of_superMethod hsuper) rfl)
        (hup.span hcallee)
    | ok found =>
      obtain ⟨hbound, hfunction⟩ := hup.super hworld hcallee hsuper
      have hstarted := after_startCall hup hbound.world (hpending.later hbound.later)
        ⟨span, method.node, .found (world.bind found.1 found.2).1, env⟩
          ⟨hspan, hscope, hfunction⟩
        fun arg harg => hbound.later.expr (hargs arg harg)
      exact hstarted.trans
  | var access calleeId name =>
    refine after_startCall hup hworld hpending ⟨span, name, _, env⟩
      ⟨hspan, hscope, ?_⟩ hargs
    by_cases hmarked : ctx.resolution.isNativeCall id = true
    · simp only [hmarked, if_true]
      exact hup.marked hexpr hmarked
    · simp only [hmarked]
      exact hup.span hcallee
  | _ => exact after_located hup hworld hpending rfl (hup.span hcallee)

theorem after_evaluate {expr : Expr} (hexpr : R.expr ⟨world.heap, origins⟩ env expr) :
    R.After origins (openedByEvaluate ctx world env expr)
      (evaluate ctx world pending env expr) := by
  have hspan := hup.span hexpr
  have hpart : ∀ part ∈ expr.parts, R.expr ⟨world.heap, origins⟩ env part :=
    fun _ => hup.part hexpr
  cases expr with
  | call span id callee args => exact after_evaluateCall hup hworld hpending hexpr
  | super span method =>
    simp only [evaluate, openedByEvaluate]
    cases hsuper : world.superMethod method.node env with
    | error cause =>
      exact after_located hup hworld hpending
        (Cause.isFault_of_kind (World.kind_of_superMethod hsuper) rfl) hspan
    | ok found =>
      obtain ⟨hbound, hfunction⟩ := hup.super hworld hexpr hsuper
      exact hbound.after hfunction hpending
  | this span =>
    simp only [evaluate, openedByEvaluate]
    split
    · rename_i hreceiver
      exact after_same hworld hpending (hup.this hworld (hup.sight hexpr) hreceiver)
    · exact after_located hup hworld hpending rfl hspan
  | literal span value =>
    refine after_same hworld hpending (hup.plain ?_)
    cases value <;> rfl
  | var span id name =>
    exact after_answer hup hworld hpending
      (fun _ hplace => Option.some.inj hplace ▸ hspan)
      (fun _ hread => hup.read hworld (hup.sight hexpr) hread) fun _ hread =>
      Cause.isFault_of_kind (Context.kind_of_read hread) rfl
  | grouping span inner =>
    exact after_same hworld hpending
      (hpart inner (by simp [Expr.parts, Expr.self_mem_parts]))
  | assign span id name value =>
    exact after_push hworld hpending ⟨hspan, hup.sight hexpr, hup.target hexpr⟩
      (hpart value (by simp [Expr.parts, Expr.self_mem_parts])) rfl
  | get span object name =>
    exact after_push hworld hpending hspan
      (hpart object (by simp [Expr.parts, Expr.self_mem_parts])) rfl
  | unary span op operand =>
    exact after_push hworld hpending hspan
      (hpart operand (by simp [Expr.parts, Expr.self_mem_parts])) rfl
  | binary span left op right =>
    exact after_push hworld hpending
      ⟨hspan, hpart right (by simp [Expr.parts, Expr.self_mem_parts])⟩
      (hpart left (by simp [Expr.parts, Expr.self_mem_parts])) rfl
  | set span object name value =>
    exact after_push hworld hpending
      ⟨hspan, hpart value (by simp [Expr.parts, Expr.self_mem_parts])⟩
      (hpart object (by simp [Expr.parts, Expr.self_mem_parts])) rfl
  | logical span left op right =>
    exact @after_push _ _ _ _ hworld hpending _ (.logical op right env)
      (hpart right (by simp [Expr.parts, Expr.self_mem_parts]))
      (hpart left (by simp [Expr.parts, Expr.self_mem_parts])) rfl

/-! ### Statements -/

private theorem after_declareVar (hname : R.declares env name)
    (hvalue : R.value ⟨world.heap, origins⟩ value) :
    R.After origins [] (declareVar world pending env name value) :=
  (hup.declare hworld hname hvalue).after trivial hpending

private theorem after_declareClass (superclass : Option Class) {span : Span}
    {decl : ClassDecl} (hstmt : R.stmt ⟨world.heap, origins⟩ env (.classDecl span decl))
    (hroot : superclass = none → decl.superclass = none)
    (hsuper : ∀ cls ∈ superclass, R.heir decl ∧
      R.value ⟨world.heap, origins⟩ (.cls cls))
    (hmade : R.made world env decl superclass) :
    R.After origins (superclass.toList.map fun _ => .superclass decl)
      (declareClass world pending env decl superclass) :=
  (hup.declareClass hworld hstmt hroot hsuper hmade).after trivial hpending

private theorem after_execute {stmt : Stmt}
    (hstmt : R.stmt ⟨world.heap, origins⟩ env stmt)
    (hmade : ∀ decl, DeclaresClass env decl none ⟨world, .exec stmt env, pending⟩ →
      R.made world env decl none) :
    R.After origins (openedByExecute stmt) (execute ctx world pending env stmt) := by
  have hoperand : ∀ expr ∈ stmt.operands, R.expr ⟨world.heap, origins⟩ env expr :=
    fun _ => hup.operand hstmt
  have hbranch : ∀ part ∈ stmt.branches, R.stmt ⟨world.heap, origins⟩ env part :=
    fun _ => hup.branch hstmt
  cases stmt with
  | block span body =>
    obtain ⟨hchange, hbody⟩ := hup.block hworld hstmt
    exact ⟨hchange.world, trivial,
      (hpending.later hchange.later).push (.seq body _) hbody⟩
  | funcDecl span decl => exact (hup.function hworld hstmt).after trivial hpending
  | classDecl span decl =>
    simp only [execute]
    split
    · rename_i superclass hsuper
      have hexpr := hoperand superclass (by simp [Stmt.operands, hsuper])
      exact after_push hworld hpending ⟨hup.span hexpr, hup.heir hsuper, span, hstmt⟩
        hexpr rfl
    · rename_i hnone
      refine after_declareClass hup hworld hpending none hstmt (fun _ => hnone)
        ?_ (hmade decl (.root hnone))
      exact fun cls hcls => absurd hcls (Option.not_mem_none cls)
  | branch span cond onTrue onFalse =>
    refine after_push hworld hpending
      ⟨hbranch onTrue mem_cons_self, fun other hother => ?_⟩
      (hoperand cond mem_cons_self) rfl
    exact hbranch other (mem_cons_of_mem _ (Option.mem_toList.2 hother))
  | print span newline operand =>
    cases operand with
    | none => exact after_same hworld hpending trivial
    | some operand =>
      exact after_push hworld hpending trivial (hoperand operand mem_cons_self) rfl
  | ret span operand =>
    cases operand with
    | none => exact after_same hworld hpending (hup.plain rfl)
    | some operand =>
      exact after_push hworld hpending trivial (hoperand operand mem_cons_self) rfl
  | brk span =>
    refine after_same hworld hpending ?_
    cases ctx.settings.breakPolicy with
    | function => exact hup.plain rfl
    | loop => trivial
  | var span name init =>
    cases init with
    | none =>
      exact after_declareVar hup hworld hpending (hup.name hstmt mem_cons_self)
        (hup.plain rfl)
    | some init =>
      exact after_push hworld hpending (hup.name hstmt mem_cons_self)
        (hoperand init mem_cons_self) rfl
  | loop span cond body =>
    have hcond := hoperand cond mem_cons_self
    exact after_push hworld hpending ⟨hcond, hbranch body mem_cons_self⟩ hcond rfl
  | expression span expr =>
    exact after_push hworld hpending trivial (hoperand expr mem_cons_self) rfl

private theorem after_printValue (newline : Bool) (value : Value) :
    R.After origins [] (printValue world pending newline value) := by
  unfold printValue
  split
  · rw [After, append_nil]
    exact ⟨hup.print _ hworld, trivial, hpending⟩
  · exact after_same hworld hpending trivial

private theorem after_callNative (name : String) (args : List Value) :
    R.After origins [] (callNative ctx world pending name args) := by
  obtain ⟨heap, frames, output⟩ := world
  have hdrawn := hup.draw hworld
  simp only [callNative]
  split
  · rename_i hanswer
    exact hdrawn.after (hup.plain (Native.dispatch_ok hanswer)) hpending
  · split
    · rename_i hpolicy
      exact hdrawn.after (hup.fault hpolicy) hpending
    · rename_i hpolicy
      exact hdrawn.after ⟨hup.failure hpolicy, by simp⟩ hpending

/-! ### Outcomes -/

omit hpending in
private theorem change_take (hvalue : R.value ⟨world.heap, origins⟩ value)
    {property : Heap.Property × Instance}
    (hproperty : world.property value name = .ok property) :
    R.Change (leaves pending) origins world (openedByTake property)
      (world.take property).2 ∧
      R.value ⟨(world.take property).2.heap, origins ++ openedByTake property⟩
      (world.take property).1 := by
  obtain ⟨property, inst⟩ := property
  obtain ⟨rfl, ⟨found, rfl, hfield⟩ | ⟨method, rfl, hmethod⟩⟩ :=
    World.property_eq_ok hproperty
  · exact ⟨.none hworld,
      (Change.none hworld).later.value (hup.field hworld hvalue hfield)⟩
  · exact hup.bind hworld hvalue hmethod

private theorem after_receive (hvalue : R.value ⟨world.heap, origins⟩ value)
    {entry : Pending} (hleave : entry.isLeave = false)
    (hentry : R.HasEntry ⟨world.heap, origins⟩ entry)
    (hmade : ∀ env decl superclass, DeclaresClass env decl superclass
      ⟨world, .value value, entry :: pending⟩ → R.made world env decl superclass) :
    R.After origins (openedByReceive ctx world value entry)
      (receive ctx world pending value entry) := by
  have hleft :=
    after_same hworld hpending
    (show R.HasControl ⟨world.heap, origins⟩ (.value value) from hvalue)
  cases entry with
  | leave span => cases hleave
  | assign span id name env =>
    obtain ⟨hspan, hscope, hname⟩ := hentry
    simp only [receive]
    split
    · rename_i hslots
      have hchange := hup.assign hworld hscope hname hslots hvalue
      exact hchange.after (hchange.later.value hvalue) hpending
    · rename_i hunbound
      exact after_located hup hworld hpending
        (Cause.isFault_of_kind (Context.kind_of_slots hunbound) rfl) hspan
  | binaryLeft span op right env =>
    exact after_push hworld hpending ⟨hentry.1, hvalue⟩ hentry.2 rfl
  | binaryRight span left op =>
    exact after_answer hup hworld hpending
      (fun _ hplace => Option.some.inj hplace ▸ hentry.1)
      (fun _ h => hup.plain (Value.binary_ok h)) fun _ h =>
      beq_false_of_ne (ErrorKind.ne_of_isOperand (Value.isOperand_of_binary h) rfl)
  | unary span op =>
    exact after_answer hup hworld hpending
      (fun _ hplace => Option.some.inj hplace ▸ hentry)
      (fun _ h => hup.plain (Value.unary_ok h)) fun _ h =>
      beq_false_of_ne (ErrorKind.ne_of_isOperand (Value.isOperand_of_unary h) rfl)
  | logical op right env =>
    have hright :=
      after_same hworld hpending
      (show R.HasControl ⟨world.heap, origins⟩ (.eval right env) from hentry)
    cases op with
    | or =>
      simp only [receive]
      split
      · exact hleft
      · exact hright
    | and =>
      simp only [receive]
      split
      · exact hright
      · exact hleft
  | get span name =>
    simp only [receive, openedByReceive]
    cases hproperty : world.property value name with
    | error cause =>
      exact after_located hup hworld hpending
        (World.isFault_of_property hproperty) hentry
    | ok property =>
      obtain ⟨hchange, htaken⟩ := change_take hup hworld hvalue hproperty
      exact hchange.after htaken hpending
  | receiver span access name args env =>
    obtain ⟨hspan, haccess, hscope, hargs⟩ := hentry
    simp only [receive, openedByReceive]
    cases hproperty : world.property value name with
    | error cause =>
      exact after_located hup hworld hpending
        (World.isFault_of_property hproperty) haccess
    | ok property =>
      obtain ⟨hchange, htaken⟩ := change_take hup hworld hvalue hproperty
      have hstarted := after_startCall hup hchange.world (hpending.later hchange.later)
        ⟨span, name, .found (world.take property).1, env⟩ ⟨hspan, hscope, htaken⟩
        fun arg harg => hchange.later.expr (hargs arg harg)
      exact hstarted.trans
  | argument call done current rest =>
    exact after_nextArgument hup hworld hpending hentry.1
      (forall_mem_cons.2 ⟨hvalue, hentry.2.1⟩) hentry.2.2
  | setObject span name operand env =>
    cases value with
    | inst inst =>
      exact @after_push _ _ _ _ hworld hpending _ (.setField inst name) hvalue
        hentry.2 rfl
    | _ => exact after_located hup hworld hpending rfl hentry.1
  | setField inst name =>
    have hchange := hup.setField name hworld hentry hvalue
    exact hchange.after (hchange.later.value hvalue) hpending
  | construct inst =>
    exact after_same hworld hpending
      (show R.HasControl _ (.value (.inst inst)) from hentry)
  | declare name env => exact after_declareVar hup hworld hpending hentry hvalue
  | branch onTrue onFalse env =>
    simp only [receive]
    split
    · exact after_same hworld hpending hentry.1
    · cases onFalse with
      | none => exact after_same hworld hpending trivial
      | some onFalse => exact after_same hworld hpending (hentry.2 onFalse rfl)
  | loopTest cond body env =>
    simp only [receive]
    split
    · exact after_push hworld hpending hentry hentry.2 rfl
    · exact after_same hworld hpending trivial
  | print newline => exact after_printValue hup hworld hpending newline value
  | ret => exact after_same hworld hpending hvalue
  | discard => exact after_same hworld hpending trivial
  | superclass span decl env =>
    obtain ⟨hspan, hheir, place, hstmt⟩ := hentry
    cases value with
    | cls superclass =>
      refine after_declareClass hup hworld hpending (some superclass) hstmt
        ?_ ?_ (hmade env decl _ .derived)
      · exact fun hnone => absurd hnone (Option.some_ne_none superclass)
      · exact fun cls hcls => ⟨hheir, Option.some.inj hcls ▸ hvalue⟩
    | _ => exact after_located hup hworld hpending rfl hspan
  | _ => exact after_push hworld hpending hentry hvalue rfl

private theorem after_proceed {flow : Flow}
    (hflow : R.HasControl ⟨world.heap, origins⟩ (.flow flow)) {entry : Pending}
    (hleave : entry.isLeave = false) (hentry : R.HasEntry ⟨world.heap, origins⟩ entry) :
    R.After origins (openedByProceed ctx world entry)
      (proceed ctx world pending flow entry) := by
  have hnowhere : ∀ place ∈ (none : Option Span), R.place place :=
    fun place => (absurd · (Option.not_mem_none place))
  cases entry with
  | leave span => cases hleave
  | seq rest env =>
    simp only [proceed]
    split
    · obtain ⟨hstmt, hrest⟩ := forall_mem_cons.1 hentry
      exact @after_push _ _ _ _ hworld hpending _ (.seq _ env) hrest hstmt rfl
    · exact after_same hworld hpending hflow
  | loopBody cond body env =>
    cases flow with
    | normal => exact after_push hworld hpending hentry hentry.1 rfl
    | brk => exact after_same hworld hpending trivial
    | ret value => exact after_same hworld hpending hflow
  | result function =>
    by_cases hinit : function.isInit = true
    · simp only [proceed, resultOf, if_pos hinit]
      exact after_answer hup hworld hpending hnowhere
        (fun _ hthis => hup.receiver hworld hentry hthis) fun _ hthis =>
        Cause.isFault_of_kind (Heap.kind_of_getAt hthis) rfl
    · simp only [proceed, resultOf, if_neg hinit]
      cases flow with
      | ret returned => exact after_same hworld hpending hflow
      | _ => exact after_same hworld hpending (hup.plain rfl)
  | enterMain =>
    simp only [proceed, openedByProceed]
    cases hmain : world.readGlobal entryPoint globalScope with
    | error cause =>
      exact after_failAt hup hworld hpending
        (Cause.isFault_of_kind (World.kind_of_readGlobal hmain) rfl) hnowhere
    | ok main =>
      have hcallee := hup.main hworld hmain
      refine after_enter hup hworld hpending entryPoint hnowhere
        fun hworld hpending => ?_
      exact after_invoke hup hworld hpending _ hcallee (forall_mem_nil _)
  | _ => exact after_push hworld hpending hentry hflow rfl

end Transitions

/-- A transition keeps all parts of a state as they are to be, up to the end of what
runs above the base. -/
theorem Governs.step (hup : R.Upheld ctx) (h : R.Governs origins m)
    (hrunning : m.control.isOutcome = true → m.pending = R.base → m.pending = [])
    (hmade : ∀ env decl superclass, DeclaresClass env decl superclass m →
      R.made m.world env decl superclass) :
    R.Governs (origins ++ m.opened ctx) (m.step ctx) := by
  obtain ⟨world, control, pending⟩ := m
  obtain ⟨hworld, hcontrol, hpending⟩ := h
  -- an outcome is handed to an entry above the base, if to any
  have habove : control.isOutcome = true → ∀ entry rest, pending = entry :: rest →
      R.HasEntry ⟨world.heap, origins⟩ entry ∧ R.Waits ⟨world.heap, origins⟩ rest := by
    rintro houtcome entry rest rfl
    obtain ⟨above, heq, habove⟩ := hpending
    cases above with
    | nil => cases hrunning houtcome heq
    | cons first above =>
      obtain ⟨rfl, rfl⟩ := List.cons.inj heq
      exact ⟨habove _ mem_cons_self, above, rfl, fun other hother =>
        habove other (mem_cons_of_mem _ hother)⟩
  have hrests : R.After origins [] ⟨world, control, pending⟩ :=
    after_same hworld hpending hcontrol
  cases control with
  | eval expr env => exact after_evaluate hup hworld hpending hcontrol
  | exec stmt env =>
    exact after_execute hup hworld hpending hcontrol fun decl hdeclares =>
      hmade env decl none hdeclares
  | native name args => exact after_callNative hup hworld hpending name args
  | value value =>
    cases pending with
    | nil => exact hrests
    | cons entry pending =>
      obtain ⟨hentry, hrest⟩ := habove rfl entry pending rfl
      rcases entry.leave_or with ⟨span, rfl⟩ | hleave
      · rw [show leaves _ = _ from leaves_cons_leave span pending] at hworld
        exact after_same (hup.pop hrest.leaves_le hworld) hrest hcontrol
      · rw [show leaves _ = _ from leaves_cons_of_not_leave hleave pending] at hworld
        exact after_receive hup hworld hrest hcontrol hleave hentry hmade
  | flow flow =>
    cases pending with
    | nil => exact hrests
    | cons entry pending =>
      obtain ⟨hentry, hrest⟩ := habove rfl entry pending rfl
      rcases entry.leave_or with ⟨span, rfl⟩ | hleave
      · exact hrests
      · rw [show leaves _ = _ from leaves_cons_of_not_leave hleave pending] at hworld
        exact after_proceed hup hworld hrest hcontrol hleave hentry
  | fail error =>
    cases pending with
    | nil => exact hrests
    | cons entry pending =>
      obtain ⟨hentry, hrest⟩ := habove rfl entry pending rfl
      cases entry with
      | leave span =>
        rw [show leaves _ = _ from leaves_cons_leave span pending] at hworld
        refine after_same (hup.pop hrest.leaves_le hworld) hrest ?_
        obtain ⟨cause, place⟩ := error
        cases span with
        | none => exact hcontrol
        | some span => cases place with
          | some place => exact hcontrol
          | none => exact ⟨hcontrol.1, hentry⟩
      | _ =>
        have hstays : R.world (leaves pending) origins world := hworld
        exact after_same hstays hrest hcontrol

/-! ## Names -/

theorem Governs.declares (hup : R.Upheld ctx) (h : R.Governs origins m)
    (hbase : R.base = []) {name : String} (hdeclares : m.declares? = some (env, name)) :
    R.declares env name := by
  obtain ⟨world, control, pending⟩ := m
  obtain ⟨-, hcontrol, hpending⟩ := h
  cases control with
  | exec stmt env =>
    obtain ⟨_, hbound, heq⟩ := Option.map_eq_some_iff.1 hdeclares
    cases heq
    exact hup.name hcontrol (Stmt.mem_binds_of_bound? hbound)
  | value value =>
    cases pending with
    | nil => cases hdeclares
    | cons entry pending =>
      have hentry := hpending.all hbase entry mem_cons_self
      cases entry with
      | declare name env =>
        cases hdeclares
        exact hentry
      | superclass span decl env =>
        obtain ⟨-, -, place, hstmt⟩ := hentry
        simp only [declares?, Pending.declares?] at hdeclares
        split at hdeclares <;> cases hdeclares
        exact hup.name hstmt mem_cons_self
      | _ => cases hdeclares
  | _ => cases hdeclares

theorem Governs.assigns (h : R.Governs origins m) (hbase : R.base = []) {name : String}
    (hassigns : m.assigns? = some (env, name)) : R.assigns env name := by
  obtain ⟨world, control, pending⟩ := m
  cases control with
  | value value =>
    cases pending with
    | nil => cases hassigns
    | cons entry pending =>
      have hentry := h.pending.all hbase entry mem_cons_self
      cases entry with
      | assign span id name env =>
        cases hassigns
        exact hentry.2.2
      | _ => cases hassigns
  | _ => cases hassigns

end Regime

end Treewalk
