import Treewalk.Proofs.Scope.Ground
import Treewalk.Proofs.Value.Operator

/-!
# Every transition keeps code in its place

A transition from a state in which all code has its place leads to such a state again,
through events that account for what it does to the heap and the frames; or it fails,
and then not for want of a scope, and for want of a variable only where the lookup has
no recorded distance or is one of `this` and `super` (`Excused`). There is one lemma for
each function of the machine, and `Standing.step` puts them together.

## Main results

* `Standing.step`: one transition.
-/

namespace Treewalk

open List

variable {cause : Cause} {function : Function}

/-- No scope is missing, and a variable is undefined only if it may be. -/
def Excused (excuse : String → Prop) : Cause → Prop
  | .missingScope .. => False
  | .undefinedVariable name _ => excuse name
  | _ => True

private theorem Excused.of_kind {excuse : String → Prop}
    (h : cause.kind ≠ .bindingError) : Excused excuse cause := by
  cases cause with
  | undefinedVariable name known => exact (h rfl).elim
  | missingScope name distance => exact (h rfl).elim
  | _ => trivial

/-- The state fails with an excuse, or all code stands in it after some events from the
scene. -/
def Lands (plan : List Site) (discipline : Discipline) (excuse : String → Prop)
    (origins : List Origin) (scene : Scene) (m : Machine) : Prop :=
  (∃ error, m.control = .fail error ∧ Excused excuse error.cause) ∨
    ∃ acts, Standing plan origins acts m ∧
      Path plan discipline scene ⟨m.world.heap, m.world.frames, acts⟩

section Lands

variable {plan : List Site} {discipline : Discipline} {excuse : String → Prop}
  {origins : List Origin} {acts : List Act} {scene scene' : Scene} {m : Machine}

private theorem Lands.after (h : Lands plan discipline excuse origins scene' m)
    (path : Path plan discipline scene scene') :
    Lands plan discipline excuse origins scene m := by
  rcases h with hfail | ⟨acts, hstanding, hpath⟩
  · exact .inl hfail
  · exact .inr ⟨acts, hstanding, path.trans hpath⟩

private theorem Lands.here (h : Standing plan origins acts m) :
    Lands plan discipline excuse origins ⟨m.world.heap, m.world.frames, acts⟩ m :=
  .inr ⟨acts, h, .refl⟩

private theorem Lands.stay {opened : List Origin} (hopened : opened = [])
    (h : Standing plan origins acts m) :
    Lands plan discipline excuse (origins ++ opened)
      ⟨m.world.heap, m.world.frames, acts⟩ m := by
  rw [hopened, append_nil]
  exact .here h

private theorem Lands.failAt {world : World} {pending : List Pending} {cause : Cause}
    {span : Option Span} (h : Excused excuse cause) :
    Lands plan discipline excuse origins scene
      (Machine.failAt world pending cause span) :=
  .inl ⟨_, rfl, h⟩

end Lands

private theorem ValueOk.callable {plan : List Site} {log : History} {value : Value}
    {callable : Callable} (h : ValueOk plan log value)
    (hcallable : value.callable? = some callable) :
    ValueOk plan log (.callable callable) := by
  cases value with
  | callable found => exact Option.some.inj hcallable ▸ h
  | cls cls =>
    obtain rfl : Callable.cls cls = callable := Option.some.inj hcallable
    exact h
  | _ => cases hcallable

namespace Machine

variable {plan : List Site} {discipline : Discipline} {excuse : String → Prop}
  {origins : List Origin} {acts : List Act} {ctx : Context} {world : World}
  {pending : List Pending} {args : List Value} {name : String} {span : Option Span}
  {act : Act} {value : Value}

/-! ## Calls -/

section Calls

variable {env : ScopeId} {regions : Regions} {inArguments : Bool}

section

variable (hground : Ground plan origins (⟨env, regions, true⟩ :: acts) world)

include hground

variable (hreturns : ∀ act, ValueStack plan ⟨world.heap, origins⟩ (act :: acts) pending)

include hreturns

private theorem lands_callFunction
    (hfunction : FunctionOk plan ⟨world.heap, origins⟩ function)
    (hargs : ∀ arg ∈ args, ValueOk plan ⟨world.heap, origins⟩ arg)
    (harity : args.length = function.arity) :
    Lands plan discipline excuse (origins ++ [.call function.decl])
      ⟨world.heap, world.frames, ⟨env, regions, true⟩ :: acts⟩
      (callFunction world pending function args) := by
  obtain ⟨heap, frames, output⟩ := world
  obtain ⟨stamp, ⟨name, params, body, span⟩, closure, isInit⟩ := function
  obtain ⟨outer, hplace, hsites, hformed, hinit⟩ := id hfunction
  simp only [FunctionDecl.sites, append_subset] at hsites
  simp only [FunctionDecl.formed] at hformed
  have hlength : (params.map (·.node)).length ≤ args.length := by
    simp [harity, Function.arity, FunctionDecl.arity, FunctionDecl.params]
  have hnames : ∀ key ∈ params.map (·.node),
      (Table.putAll [] ((params.map (·.node)).zip args)).has key = true := by
    intro key hkey
    refine Table.has_putAll (.inr ?_)
    rwa [map_fst_zip hlength]
  obtain ⟨hground', -, hinner⟩ := hground.makeChild hplace
    ⟨.call (.mk name params body span), params.map (·.node)⟩ (.zip _ hargs) hnames (by
      intro _ key hkey
      obtain ⟨param, hparam, rfl⟩ := mem_map.1 hkey
      exact ⟨.param, _, hsites.1 (mem_map.2 ⟨param, hparam, rfl⟩), rfl⟩)
  have huntouched := Heap.Untouched.makeScope heap (heap.chain closure)
    (Table.putAll [] ((params.map (·.node)).zip args))
  have e := huntouched.extension origins [.call (.mk name params body span)]
  refine .inr ⟨_, ⟨hground'.move ⟨_, _, false⟩ hinner, .normal ?_⟩,
    .single
      (.body huntouched (Nat.le_refl _) (hinner.seated hground'.size hground'.globals))⟩
  refine .seq ?_ hformed (.body (hfunction.mono e) fun act => (hreturns act).mono e)
  rw [Regions.declare_nil]
  exact hsites.2

theorem lands_construct {cls : Class} (hcls : ClassOk plan ⟨world.heap, origins⟩ cls)
    (hargs : ∀ arg ∈ args, ValueOk plan ⟨world.heap, origins⟩ arg)
    (harity : args.length = cls.arity) :
    Lands plan discipline excuse
      (origins ++ match cls.findMethod? Class.initializer with
        | none => []
        | some init => [.receiver init.decl, .call init.decl])
      ⟨world.heap, world.frames, ⟨env, regions, true⟩ :: acts⟩
        (construct world pending cls args) := by
  obtain ⟨heap, frames, output⟩ := world
  have hground' := hground.makeInstance cls
  have huntouched : heap.Untouched (heap.makeInstance cls).2 := .of_scopes_eq rfl
  have e := huntouched.same origins
  have hinst : ValueOk plan ⟨(heap.makeInstance cls).2, origins⟩
      (.inst (heap.makeInstance cls).1) := ClassOk.mono hcls e
  unfold construct
  cases hinit : cls.findMethod? Class.initializer with
  | none =>
    simp only [append_nil]
    exact .inr
      ⟨_, ⟨hground', .value hinst ((hreturns _).mono e)⟩, .single (.quiet huntouched)⟩
  | some init =>
    obtain ⟨hbound, hkept, -, hfunction⟩ :=
      hground'.bind ((hcls _ _ hinit).mono e) hinst
    have e' := hkept.extension origins [.receiver init.decl]
    have hall : ∀ arg ∈ args, ValueOk plan
        ⟨((heap.makeInstance cls).2.bind init (.inst (heap.makeInstance cls).1)).2,
          origins ++ [.receiver init.decl]⟩ arg :=
      fun arg harg => ((hargs arg harg).mono e).mono e'
    have hlands : Lands plan discipline excuse _ _ _ := lands_callFunction hbound
      (fun act => .construct (hinst.mono e') (((hreturns act).mono e).mono e'))
        hfunction hall
      (show args.length = init.arity by simpa [Class.arity, hinit] using harity)
    rw [append_assoc] at hlands
    exact hlands.after (.single (.quiet (huntouched.trans hkept)))

private theorem lands_invoke {callee : Value}
    (hcallee : ValueOk plan ⟨world.heap, origins⟩ callee)
    (hargs : ∀ arg ∈ args, ValueOk plan ⟨world.heap, origins⟩ arg) :
    Lands plan discipline excuse (origins ++ openedByInvoke callee args)
      ⟨world.heap, world.frames, ⟨env, regions, true⟩ :: acts⟩
      (invoke world pending name callee args) := by
  unfold invoke openedByInvoke
  cases hcallable : callee.callable? with
  | none => exact .failAt trivial
  | some callable =>
    have hok := hcallee.callable hcallable
    by_cases harity : args.length = callable.arity
    · simp only [harity, if_true]
      cases callable with
      | function function =>
        exact lands_callFunction hground hreturns hok hargs harity
      | cls cls => exact lands_construct hground hreturns hok hargs harity
      | native native =>
        simp only [append_nil]
        exact .here ⟨hground, .native (hreturns _)⟩
    · simp only [harity, if_false]
      exact .failAt trivial

end

private theorem lands_complete {call : Call} {args : List (Expr × Value)}
    (hagrees : Agrees plan ctx.resolution)
    (hground : Ground plan origins (⟨call.env, regions, true⟩ :: acts) world)
    (hreturns : ∀ act, ValueStack plan ⟨world.heap, origins⟩ (act :: acts) pending)
    (hcallee : CalleeOk plan ⟨world.heap, origins⟩ call regions)
    (hargs : ∀ arg ∈ args, ValueOk plan ⟨world.heap, origins⟩ arg.2)
    (hcalled : Called plan (args.map (·.1)))
    (hexcuse : ∀ span id, call.callee = .named span id →
      ctx.resolution.distance? id = none → excuse call.name) :
    Lands plan discipline excuse (origins ++ openedByComplete ctx world call args)
      ⟨world.heap, world.frames, ⟨call.env, regions, true⟩ :: acts⟩
      (complete ctx world pending call args) := by
  obtain ⟨heap, frames, output⟩ := world
  have hground' : Ground plan origins (⟨call.env, regions, true⟩ :: acts)
      ⟨heap, frames.addAll (namedArguments args), output⟩ := hground.addNamed hargs
  have hvalues : ∀ value ∈ args.map (·.2), ValueOk plan ⟨heap, origins⟩ value := by
    intro value hvalue
    obtain ⟨arg, harg, rfl⟩ := mem_map.1 hvalue
    exact hargs arg harg
  have hpath : Path plan discipline ⟨heap, frames, ⟨call.env, regions, true⟩ :: acts⟩
      ⟨heap, frames.addAll (namedArguments args), ⟨call.env, regions, true⟩ :: acts⟩ :=
    .single (.arguments hcalled)
  refine Lands.after ?_ hpath
  unfold complete openedByComplete
  unfold CalleeOk at hcallee
  cases hcase : call.callee with
  | found callee =>
    rw [hcase] at hcallee
    exact lands_invoke hground' hreturns hcallee hvalues
  | native =>
    simp only [append_nil]
    exact .here ⟨hground', .native (hreturns _)⟩
  | named span id =>
    rw [hcase] at hcallee
    obtain ⟨inArguments, hsite⟩ := hcallee
    rcases hground'.read hagrees hground'.place hsite with
      ⟨callee, hread, hok⟩ | ⟨known, hread, hdistance⟩
    · simp only [hread]
      exact lands_invoke hground' hreturns hok hvalues
    · simp only [hread]
      exact .failAt (hexcuse span id hcase hdistance)

private theorem lands_nextArgument {call : Call} {done : List (Expr × Value)}
    {rest : List Expr} (hagrees : Agrees plan ctx.resolution)
    (hground : Ground plan origins
      (⟨call.env, regions, true⟩ :: ⟨call.env, regions, inArguments⟩ :: acts) world)
    (hstack : ValueStack plan ⟨world.heap, origins⟩
      (⟨call.env, regions, inArguments⟩ :: acts) pending)
    (hcallee : CalleeOk plan ⟨world.heap, origins⟩ call regions)
    (hdone : ∀ arg ∈ done, ValueOk plan ⟨world.heap, origins⟩ arg.2)
    (hsites : Expr.argumentSites regions rest ⊆ plan)
    (hcalled : Called plan (done.reverse.map (·.1) ++ rest))
    (hexcuse : rest = [] → ∀ span id, call.callee = .named span id →
      ctx.resolution.distance? id = none → excuse call.name) :
    Lands plan discipline excuse (origins ++ openedByArgument ctx world call done rest)
      ⟨world.heap, world.frames,
        ⟨call.env, regions, true⟩ :: ⟨call.env, regions, inArguments⟩ :: acts⟩
      (nextArgument ctx world (.leave span :: pending) call done rest) := by
  cases rest with
  | nil =>
    refine lands_complete hagrees hground (fun _ => .leave hstack) hcallee
      ?_ ?_ (hexcuse rfl)
    · intro arg harg
      exact hdone arg (mem_reverse.1 harg)
    · simpa using hcalled
  | cons expr rest =>
    simp only [Expr.argumentSites, append_subset] at hsites
    exact .stay rfl ⟨hground, .evalIn hsites.1
      (.argument rfl hcallee hdone hsites.2 hcalled hstack)⟩

private theorem lands_enter {next : World → List Pending → Machine}
    {opened : World → List Origin}
    (hground : Ground plan origins (⟨env, regions, inArguments⟩ :: acts) world)
    (hnext : ∀ frames,
      Ground plan origins (⟨env, regions, true⟩ :: ⟨env, regions, inArguments⟩ :: acts)
      ⟨world.heap, frames, world.output⟩ →
      Lands plan discipline excuse
      (origins ++ opened ⟨world.heap, frames, world.output⟩)
      ⟨world.heap, frames, ⟨env, regions, true⟩ :: ⟨env, regions, inArguments⟩ :: acts⟩
      (next ⟨world.heap, frames, world.output⟩ (.leave span :: pending))) :
    Lands plan discipline excuse (origins ++ openedByEnter ctx world name opened)
      ⟨world.heap, world.frames, ⟨env, regions, inArguments⟩ :: acts⟩
      (enter ctx world pending name span next) := by
  obtain ⟨heap, frames, output⟩ := world
  unfold enter openedByEnter
  split
  · exact .failAt trivial
  · have hpushed := hground.push ⟨env, regions, true⟩ hground.place name
    exact (hnext _ hpushed).after (.single .call)

theorem lands_startCall (call : Call) {args : List Expr}
    (hagrees : Agrees plan ctx.resolution)
    (hground : Ground plan origins (⟨call.env, regions, inArguments⟩ :: acts) world)
    (hstack : ValueStack plan ⟨world.heap, origins⟩
      (⟨call.env, regions, inArguments⟩ :: acts) pending)
    (hcallee : CalleeOk plan ⟨world.heap, origins⟩ call regions)
    (hsites : Expr.argumentSites regions args ⊆ plan) (hcalled : Called plan args)
    (hexcuse : args = [] → ∀ span id, call.callee = .named span id →
      ctx.resolution.distance? id = none → excuse call.name) :
    Lands plan discipline excuse (origins ++ openedByStart ctx world call args)
      ⟨world.heap, world.frames, ⟨call.env, regions, inArguments⟩ :: acts⟩
      (startCall ctx world pending call args) := by
  refine lands_enter hground fun frames hpushed => ?_
  exact lands_nextArgument hagrees hpushed hstack hcallee
    (fun _ harg => by cases harg) hsites hcalled hexcuse

end Calls

/-! ## Expressions -/

private theorem excused_superMethod {env : ScopeId}
    (h : world.superMethod name env = .error cause) (hthis : excuse "this")
    (hsuper : excuse "super") : Excused excuse cause := by
  unfold World.superMethod at h
  split at h
  · split at h
    · cases h
      exact hthis
    · split at h
      · cases h
        trivial
      · cases h
  · cases h
    exact hsuper

private theorem excused_property {object : Value}
    (h : world.property object name = .error cause) : Excused excuse cause := by
  unfold World.property at h
  split at h
  · split at h
    · cases h
    · cases h
      trivial
  · cases h
    trivial

private theorem lands_evaluateCall {span : Span} {id : NodeId} {callee : Expr}
    {args : List Expr} (hagrees : Agrees plan ctx.resolution)
    (hground : Ground plan origins (act :: acts) world)
    (hcallee : callee.sites act.regions act.inArguments ⊆ plan)
    (hargs : Expr.argumentSites act.regions args ⊆ plan) (hcalled : Called plan args)
    (hstack : ValueStack plan ⟨world.heap, origins⟩ (act :: acts) pending) :
    Lands plan discipline
      (MayMiss ctx ⟨world, .eval (.call span id callee args) act.env, pending⟩)
      (origins ++ openedByCall ctx world act.env span id callee args)
      ⟨world.heap, world.frames, act :: acts⟩
      (evaluateCall ctx world pending act.env span id callee args) := by
  cases callee with
  | get access object name =>
    exact .stay rfl ⟨hground, .eval hcallee (.receiver hargs hcalled hstack)⟩
  | super access method =>
    simp only [evaluateCall, openedByCall]
    cases hsuper : world.superMethod method.node act.env with
    | error cause =>
      exact .failAt (excused_superMethod hsuper (.inr (.superCall (.inl rfl)))
        (.inr (.superCall (.inr rfl))))
    | ok found =>
      obtain ⟨function, receiver⟩ := found
      obtain ⟨hmethod, hreceiver⟩ := hground.superMethod hsuper
      obtain ⟨hbound, hkept, hframes, hfunction⟩ := hground.bind hmethod hreceiver
      have hlands : Lands plan discipline
          (MayMiss ctx
            ⟨world, .eval (.call span id (.super access method) args) act.env, pending⟩)
            _ _ _ :=
        lands_startCall ⟨span, method.node, .found (world.bind function receiver).1,
          act.env⟩ hagrees hbound (hstack.mono (hkept.extension origins _)) hfunction
          hargs hcalled fun _ _ _ hnamed => by cases hnamed
      rw [append_assoc, hframes] at hlands
      exact hlands.after (.single (.quiet hkept))
  | var access calleeId name =>
    have hsite : ⟨.read calleeId name, act.regions, act.inArguments⟩ ∈ plan := by
      simpa [Expr.sites] using hcallee
    simp only [evaluateCall, openedByCall]
    refine lands_startCall ⟨span, name, _, act.env⟩ hagrees hground hstack ?_ hargs
      hcalled ?_
    · unfold CalleeOk
      by_cases hnative : ctx.resolution.isNativeCall id = true
      · simp [hnative]
      · simp only [hnative]
        exact ⟨_, hsite⟩
    · intro hnil span' id' hnamed hdistance
      subst hnil
      by_cases hnative : ctx.resolution.isNativeCall id = true
      · simp [hnative] at hnamed
      · simp only [hnative] at hnamed
        cases hnamed
        exact .inl ⟨_, _, .call (by simpa using hnative), hdistance⟩
  | _ => exact .failAt trivial

theorem lands_evaluate {expr : Expr} (hagrees : Agrees plan ctx.resolution)
    (hground : Ground plan origins (act :: acts) world)
    (hsites : expr.sites act.regions act.inArguments ⊆ plan)
    (hstack : ValueStack plan ⟨world.heap, origins⟩ (act :: acts) pending) :
    Lands plan discipline (MayMiss ctx ⟨world, .eval expr act.env, pending⟩)
      (origins ++ openedByEvaluate ctx world act.env expr)
        ⟨world.heap, world.frames, act :: acts⟩
      (evaluate ctx world pending act.env expr) := by
  cases expr with
  | call span id callee args =>
    simp only [Expr.sites, append_subset, cons_subset] at hsites
    exact lands_evaluateCall hagrees hground hsites.1 hsites.2.1
      ⟨_, _, _, hsites.2.2.1⟩ hstack
  | super span method =>
    simp only [evaluate, openedByEvaluate]
    cases hsuper : world.superMethod method.node act.env with
    | error cause =>
      exact .failAt (excused_superMethod hsuper (.inr (.super (.inl rfl)))
        (.inr (.super (.inr rfl))))
    | ok found =>
      obtain ⟨function, receiver⟩ := found
      obtain ⟨hmethod, hreceiver⟩ := hground.superMethod hsuper
      obtain ⟨hbound, hkept, hframes, hfunction⟩ := hground.bind hmethod hreceiver
      refine .inr
        ⟨_, ⟨hbound, .value hfunction (hstack.mono (hkept.extension origins _))⟩, ?_⟩
      rw [hframes]
      exact .single (.quiet hkept)
  | this span =>
    simp only [evaluate]
    cases hthis : world.heap.lookup? act.env "this" with
    | some receiver =>
      exact .stay rfl ⟨hground, .value (hground.values.heap.lookup? hthis) hstack⟩
    | none => exact .failAt (.inr .this)
  | var span id name =>
    simp only [evaluate]
    have hsite : ⟨.read id name, act.regions, act.inArguments⟩ ∈ plan := by
      simpa [Expr.sites] using hsites
    rcases hground.read hagrees hground.place hsite with
      ⟨value, hread, hok⟩ | ⟨known, hread, hdistance⟩
    · rw [hread]
      exact .stay rfl ⟨hground, .value hok hstack⟩
    · rw [hread]
      exact .failAt (.inl ⟨_, _, .var, hdistance⟩)
  | literal span value =>
    exact .stay rfl ⟨hground, .value (by cases value <;> trivial) hstack⟩
  | assign span id name value =>
    simp only [Expr.sites, append_subset, cons_subset] at hsites
    exact .stay rfl ⟨hground, .eval hsites.1 (.assign hsites.2.1 hstack)⟩
  | binary span left op right =>
    simp only [Expr.sites, append_subset] at hsites
    exact .stay rfl ⟨hground, .eval hsites.1 (.binaryLeft hsites.2 hstack)⟩
  | get span object name =>
    exact .stay rfl ⟨hground, .eval hsites (.get hstack)⟩
  | grouping span inner =>
    exact .stay rfl ⟨hground, .eval hsites hstack⟩
  | logical span left op right =>
    simp only [Expr.sites, append_subset] at hsites
    exact .stay rfl ⟨hground, .eval hsites.1 (.logical hsites.2 hstack)⟩
  | set span object name value =>
    simp only [Expr.sites, append_subset] at hsites
    exact .stay rfl ⟨hground, .eval hsites.1 (.setObject hsites.2 hstack)⟩
  | unary span op operand =>
    exact .stay rfl ⟨hground, .eval hsites (.unary hstack)⟩

/-! ## Statements -/

section Statements

variable {env : ScopeId} {regions : Regions}

private theorem lands_declareVar
    (hground : Ground plan origins (⟨env, regions, false⟩ :: acts) world)
    (hsite : ⟨.declare .var name, regions, false⟩ ∈ plan)
    (hvalue : ValueOk plan ⟨world.heap, origins⟩ value)
    (hstack : FlowStack plan ⟨world.heap, origins⟩ (⟨env, regions, false⟩ :: acts)
      [name] pending) :
    Lands plan discipline excuse origins
      ⟨world.heap, world.frames, ⟨env, regions, false⟩ :: acts⟩
      (declareVar world pending env name value) := by
  obtain ⟨heap, frames, output⟩ := world
  obtain ⟨hsets, hground'⟩ := hground.declareVar hsite hvalue
  have hdone := (hstack.mono (hsets.extension origins)).pay
  exact .inr ⟨_, ⟨hground', .normal hdone⟩, .single (.declare (.inl rfl) hsite hsets)⟩

private theorem lands_declareClass {decl : ClassDecl} {superclass : Option Class}
    (hground : Ground plan origins (⟨env, regions, false⟩ :: acts) world)
    (hsites : decl.sites regions ⊆ plan) (hformed : decl.formed = true)
    (hmatch : superclass.isSome = decl.superclass.isSome)
    (hsuper : ∀ cls, superclass = some cls → ClassOk plan ⟨world.heap, origins⟩ cls)
    (hstack : FlowStack plan ⟨world.heap, origins⟩ (⟨env, regions, false⟩ :: acts)
      [decl.name.node] pending) :
    Lands plan discipline excuse
      (origins ++ if superclass.isSome then [.superclass decl] else [])
      ⟨world.heap, world.frames, ⟨env, regions, false⟩ :: acts⟩
      (declareClass world pending env decl superclass) := by
  obtain ⟨heap, value, hmade, hsite, hsets, hground'⟩ :=
    hground.declareClass hsites hformed hmatch hsuper pending
  rw [hmade]
  have e := (hsets.extension origins).append
    (if superclass.isSome then [Origin.superclass decl] else [])
  exact .inr ⟨_, ⟨hground', .normal (hstack.mono e).pay⟩,
    .single (.declare (.inr rfl) hsite hsets)⟩

theorem lands_execute {stmt : Stmt}
    (hground : Ground plan origins (⟨env, regions, false⟩ :: acts) world)
    (hsites : stmt.sites regions ⊆ plan) (hformed : stmt.formed = true)
    (hstack : FlowStack plan ⟨world.heap, origins⟩ (⟨env, regions, false⟩ :: acts)
      stmt.declared pending) :
    Lands plan discipline excuse (origins ++ openedByExecute stmt)
      ⟨world.heap, world.frames, ⟨env, regions, false⟩ :: acts⟩
      (execute ctx world pending env stmt) := by
  cases stmt with
  | block span body =>
    obtain ⟨heap, frames, output⟩ := world
    simp only [Stmt.sites] at hsites
    simp only [Stmt.formed] at hformed
    obtain ⟨hground', hinside, hinner⟩ := hground.makeChild hground.place
      ⟨.block span body, []⟩ .nil (fun _ hname => by cases hname)
      (fun _ _ hname => by cases hname)
    have huntouched := Heap.Untouched.makeScope heap (heap.chain env) []
    refine .inr ⟨_, ⟨hground'.move ⟨_, _, false⟩ hinner, .normal ?_⟩,
      .single (.openBlock huntouched (Nat.le_refl _) hinside)⟩
    refine .seq ?_ hformed
      (.block hinside (hstack.mono (huntouched.extension origins _)))
    rw [Regions.declare_nil]
    exact hsites
  | funcDecl span decl =>
    obtain ⟨heap, frames, output⟩ := world
    simp only [Stmt.sites, cons_subset] at hsites
    simp only [Stmt.formed] at hformed
    simp only [openedByExecute, append_nil]
    obtain ⟨hsets, hground'⟩ := hground.declareFunction hsites.1 hsites.2 hformed rfl
    have hdone := (hstack.mono (hsets.extension origins)).pay
    exact .inr ⟨_, ⟨hground', .normal hdone⟩, .single (.function hsites.1 hsets)⟩
  | classDecl span decl =>
    simp only [Stmt.sites] at hsites
    simp only [Stmt.formed] at hformed
    simp only [openedByExecute, append_nil, execute]
    cases hsuper : decl.superclass with
    | none =>
      have hlands :=
        @lands_declareClass plan discipline excuse origins acts world pending env
        regions decl none hground hsites hformed (by rw [hsuper]; rfl)
        (fun _ hcls => by cases hcls) hstack
      rwa [Option.isSome_none, if_neg Bool.false_ne_true, append_nil] at hlands
    | some superclass =>
      have hsome : decl.superclass.isSome = true := by rw [hsuper]; rfl
      have hlookup : superclass.sites regions false ⊆ plan := by
        obtain ⟨name, found, methods, place⟩ := decl
        obtain rfl : found = some superclass := hsuper
        simp only [ClassDecl.sites, append_subset] at hsites
        exact hsites.1
      exact .here ⟨hground, .evalIn hlookup (.superclass hsites hformed hsome hstack)⟩
  | branch span cond onTrue onFalse =>
    cases onFalse with
    | none =>
      simp only [Stmt.sites, append_subset] at hsites
      simp only [Stmt.formed, Bool.and_eq_true] at hformed
      have htrue : BlockOk plan regions onTrue :=
        ⟨hsites.2, hformed.2, Stmt.declared_of_isBlock hformed.1⟩
      rw [Stmt.declared, htrue.declared] at hstack
      exact .stay rfl ⟨hground, .evalIn hsites.1
        (.branch htrue (fun _ hnone => by cases hnone) hstack)⟩
    | some onFalse =>
      simp only [Stmt.sites, append_subset] at hsites
      simp only [Stmt.formed, Bool.and_eq_true] at hformed
      have htrue : BlockOk plan regions onTrue :=
        ⟨hsites.2.1, hformed.1.2, Stmt.declared_of_isBlock hformed.1.1⟩
      have hfalse : BlockOk plan regions onFalse :=
        ⟨hsites.2.2, hformed.2.2, Stmt.declared_of_isAlternative hformed.2.1
          hformed.2.2⟩
      rw [Stmt.declared, htrue.declared, hfalse.declared] at hstack
      exact .stay rfl ⟨hground, .evalIn hsites.1
        (.branch htrue (fun _ hsome => Option.some.inj hsome ▸ hfalse) hstack)⟩
  | loop span cond body =>
    simp only [Stmt.sites, append_subset] at hsites
    simp only [Stmt.formed, Bool.and_eq_true] at hformed
    have hbody : BlockOk plan regions body :=
      ⟨hsites.2, hformed.2, Stmt.declared_of_isBlock hformed.1⟩
    rw [Stmt.declared, hbody.declared] at hstack
    exact .stay rfl ⟨hground, .evalIn hsites.1 (.loopTest hsites.1 hbody hstack)⟩
  | print span newline operand =>
    cases operand with
    | none => exact .stay rfl ⟨hground, .normal hstack⟩
    | some operand =>
      exact .stay rfl ⟨hground, .evalIn hsites (.print hstack)⟩
  | ret span operand =>
    cases operand with
    | none =>
      refine .stay rfl ⟨hground, .flow (fun value hret => ?_) hstack⟩
      obtain rfl := Flow.ret.inj hret
      trivial
    | some operand =>
      exact .stay rfl ⟨hground, .evalIn hsites (.ret hstack)⟩
  | brk span =>
    refine .stay rfl ⟨hground, .flow (fun value hret => ?_) hstack⟩
    cases hpolicy : ctx.settings.breakPolicy with
    | function =>
      rw [hpolicy] at hret
      obtain rfl := Flow.ret.inj hret
      trivial
    | loop =>
      rw [hpolicy] at hret
      cases hret
  | var span name init =>
    simp only [openedByExecute, append_nil]
    simp only [Stmt.sites, append_subset, cons_subset] at hsites
    cases init with
    | none => exact lands_declareVar hground hsites.2.1 trivial hstack
    | some init =>
      exact .here ⟨hground, .evalIn hsites.1 (.declare hsites.2.1 hstack)⟩
  | expression span expr =>
    exact .stay rfl ⟨hground, .evalIn hsites (.discard hstack)⟩

end Statements

/-! ## Answers -/

section Answers

private theorem lands_answer {result : Except Cause Value}
    (hground : Ground plan origins acts world)
    (hstack : ValueStack plan ⟨world.heap, origins⟩ acts pending)
    (hok : ∀ value, result = .ok value → ValueOk plan ⟨world.heap, origins⟩ value)
    (herror : ∀ cause, result = .error cause → Excused excuse cause) :
    Lands plan discipline excuse origins ⟨world.heap, world.frames, acts⟩
      (answer world pending span result) := by
  cases result with
  | ok value => exact .here ⟨hground, .value (hok value rfl) hstack⟩
  | error cause => exact .failAt (herror cause rfl)

private theorem lands_callNative (hground : Ground plan origins acts world)
    (hstack : ValueStack plan ⟨world.heap, origins⟩ acts pending) :
    Lands plan discipline excuse origins ⟨world.heap, world.frames, acts⟩
      (callNative ctx world pending name args) := by
  obtain ⟨heap, frames, output⟩ := world
  have huntouched : heap.Untouched heap.draw.2 := .of_scopes_eq rfl
  have hlands : ∀ value, (∀ log, ValueOk plan log value) →
      Lands plan discipline excuse origins ⟨heap, frames, acts⟩
        ⟨⟨heap.draw.2, frames, output⟩, .value value, pending⟩ := fun value hvalue =>
    .inr
      ⟨_,
        ⟨hground.of_eq rfl rfl,
          .value (hvalue _) (hstack.mono (huntouched.same origins))⟩,
      .single (.quiet huntouched)⟩
  simp only [callNative]
  cases hdispatch : Native.dispatch ctx.natives (ctx.host.answers heap.draw.1)
    name args with
  | ok value => exact hlands _ fun _ => .of_isComparable (Native.dispatch_ok hdispatch)
  | error fault =>
    cases ctx.settings.faultPolicy with
    | value => exact hlands _ fun _ => trivial
    | error => exact .failAt trivial

end Answers

/-! ## Outcomes -/

section Outcomes

variable {flow : Flow}

private theorem lands_assign {span : Span} {id : NodeId}
    (hagrees : Agrees plan ctx.resolution)
    (hground : Ground plan origins (act :: acts) world)
    (hvalue : ValueOk plan ⟨world.heap, origins⟩ value)
    (hsite : ⟨.write id name, act.regions, act.inArguments⟩ ∈ plan)
    (hstack : ValueStack plan ⟨world.heap, origins⟩ (act :: acts) pending)
    (hexcuse : ctx.resolution.distance? id = none → excuse name) :
    Lands plan ctx.discipline excuse origins ⟨world.heap, world.frames, act :: acts⟩
      (receive ctx world pending value (.assign span id name act.env)) := by
  obtain ⟨heap, frames, output⟩ := world
  have hframe : ctx.discipline = .frames →
      (ctx.frameValue? ⟨heap, frames, output⟩ name).isSome =
        (frames.get? name).isSome := by
    intro hdiscipline
    simp only [Context.frameValue?, hdiscipline]
  simp only [receive, Context.slots]
  rcases hground.scopeSlot hagrees hground.place hsite with
    ⟨scope, hslot, hlt, hassigned⟩ | ⟨known, hslot, hdistance, hassigned⟩
  · simp only [hslot]
    have hsets := Heap.Sets.define hlt name value
    have e := hsets.extension origins
    have hdefined := hground.define hlt (hvalue.mono e)
    refine .inr ⟨act :: acts, ⟨?_, .value (hvalue.mono e) (hstack.mono e)⟩,
      .single (@Event.assign plan _ heap frames act acts id name value (some scope) _
        hsite hassigned hframe)⟩
    show Ground plan origins (act :: acts)
      ⟨heap.define scope name value, if _ then _ else _, output⟩
    split
    · exact hdefined.add name (hvalue.mono e)
    · exact hdefined
  · simp only [hslot]
    cases hsome : (ctx.frameValue? ⟨heap, frames, output⟩ name).isSome with
    | true =>
      rw [hsome] at hframe
      simp only [if_true]
      exact .inr ⟨act :: acts, ⟨hground.add name hvalue, .value hvalue hstack⟩,
        .single (@Event.assign plan _ heap frames act acts id name value none true
          hsite hassigned hframe)⟩
    | false =>
      simp only [Bool.false_eq_true, if_false]
      exact .failAt (hexcuse hdistance)

private theorem lands_receive {next : Pending} (hagrees : Agrees plan ctx.resolution)
    (hground : Ground plan origins acts world)
    (hvalue : ValueOk plan ⟨world.heap, origins⟩ value)
    (hstack : ValueStack plan ⟨world.heap, origins⟩ acts (next :: pending)) :
    Lands plan ctx.discipline (MayMiss ctx ⟨world, .value value, next :: pending⟩)
      (origins ++ openedByReceive ctx world value next) ⟨world.heap, world.frames, acts⟩
      (receive ctx world pending value next) := by
  cases hstack with
  | assign hsite hstack =>
    simp only [openedByReceive, append_nil]
    exact lands_assign hagrees hground hvalue hsite hstack
      fun hdistance => .inl ⟨_, _, .assign, hdistance⟩
  | binaryLeft hsites hstack =>
    exact .stay rfl ⟨hground, .eval hsites (.binaryRight hstack)⟩
  | binaryRight hstack =>
    simp only [openedByReceive, append_nil]
    exact lands_answer hground hstack
      (fun _ hok => .of_isComparable (Value.binary_ok hok)) fun _ herror =>
      .of_kind (Value.binary_error herror)
  | @logical act acts op right _ hsites hstack =>
    cases op with
    | or =>
      simp only [receive]
      split
      · exact .stay rfl ⟨hground, .value hvalue hstack⟩
      · exact .stay rfl ⟨hground, .eval hsites hstack⟩
    | and =>
      simp only [receive]
      split
      · exact .stay rfl ⟨hground, .eval hsites hstack⟩
      · exact .stay rfl ⟨hground, .value hvalue hstack⟩
  | unary hstack =>
    simp only [openedByReceive, append_nil]
    exact lands_answer hground hstack
      (fun _ hok => .of_isComparable (Value.unary_ok hok)) fun _ herror =>
      .of_kind (Value.unary_error herror)
  | @get acts span name _ hstack =>
    simp only [receive, openedByReceive]
    cases hproperty : world.property value name with
    | error cause => exact .failAt (excused_property hproperty)
    | ok property =>
      obtain ⟨hground', hkept, hframes, hok⟩ := hground.take hvalue hproperty
      refine .inr
        ⟨_, ⟨hground', .value hok (hstack.mono (hkept.extension origins _))⟩, ?_⟩
      rw [hframes]
      exact .single (.quiet hkept)
  | setObject hsites hstack =>
    cases value with
    | inst inst => exact .stay rfl ⟨hground, .eval hsites (.setField hstack)⟩
    | _ => exact .failAt trivial
  | @setField acts inst name _ hstack =>
    obtain ⟨heap, frames, output⟩ := world
    simp only [openedByReceive, append_nil]
    have huntouched : heap.Untouched (heap.setField inst name value) :=
      .of_scopes_eq rfl
    have e := huntouched.same origins
    exact .inr
      ⟨_, ⟨hground.setField inst name hvalue, .value (hvalue.mono e) (hstack.mono e)⟩,
        .single (.quiet huntouched)⟩
  | @receiver act acts span access name args _ hsites hcalled hstack =>
    simp only [receive, openedByReceive]
    cases hproperty : world.property value name with
    | error cause => exact .failAt (excused_property hproperty)
    | ok property =>
      obtain ⟨hground', hkept, hframes, hok⟩ := hground.take hvalue hproperty
      have hlands : Lands plan ctx.discipline
          (MayMiss ctx ⟨world, .value value, .receiver span access name args act.env ::
            pending⟩) _ _ _ :=
        lands_startCall ⟨span, name, .found (world.take property).1, act.env⟩
          hagrees hground' (hstack.mono (hkept.extension origins _)) hok hsites hcalled
          fun _ _ _ hnamed => by cases hnamed
      rw [append_assoc, hframes] at hlands
      exact hlands.after (.single (.quiet hkept))
  | @argument env regions inArguments acts call done current rest span _ henv hcallee
      hdone hsites hcalled hstack =>
      subst henv
      refine lands_nextArgument hagrees hground hstack hcallee ?_ hsites
        (by simpa using hcalled) ?_
      · intro arg harg
        rcases mem_cons.1 harg with rfl | hold
        · exact hvalue
        · exact hdone arg hold
      · intro hnil access id hnamed hdistance
        obtain ⟨place, name, callee, scope⟩ := call
        subst hnil
        obtain rfl : callee = .named access id := hnamed
        exact .inl ⟨_, _, .argument, hdistance⟩
  | leave hstack =>
    obtain ⟨heap, frames, output⟩ := world
    simp only [openedByReceive, append_nil]
    exact .inr ⟨_, ⟨hground.pop, .value hvalue hstack⟩, .single .leave⟩
  | construct hinst hstack =>
    exact .stay rfl ⟨hground, .value hinst hstack⟩
  | declare hsite hstack =>
    simp only [openedByReceive, append_nil]
    exact lands_declareVar hground hsite hvalue hstack
  | branch htrue hfalse hstack =>
    simp only [receive]
    split
    · exact .stay rfl
        ⟨hground, .exec htrue.sites htrue.formed (htrue.declared ▸ hstack)⟩
    · split
      · rename_i onFalse
        have hok := hfalse onFalse rfl
        exact .stay rfl ⟨hground, .exec hok.sites hok.formed (hok.declared ▸ hstack)⟩
      · exact .stay rfl ⟨hground, .normal hstack⟩
  | loopTest hcond hbody hstack =>
    simp only [receive]
    split
    · refine .stay rfl ⟨hground, .exec hbody.sites hbody.formed ?_⟩
      rw [hbody.declared]
      exact .loopBody hcond hbody hstack
    · exact .stay rfl ⟨hground, .normal hstack⟩
  | print hstack =>
    simp only [openedByReceive, append_nil, receive, printValue]
    split
    · exact .inr ⟨_, ⟨hground.of_eq rfl rfl, .normal hstack⟩, .refl⟩
    · exact .here ⟨hground, .normal hstack⟩
  | ret hstack =>
    exact .stay rfl ⟨hground, .flow (fun _ hret => Flow.ret.inj hret ▸ hvalue) hstack⟩
  | discard hstack =>
    exact .stay rfl ⟨hground, .normal hstack⟩
  | superclass hsites hformed hsome hstack =>
    cases value with
    | cls cls =>
      exact @lands_declareClass plan _ _ origins _ world pending _ _ _ (some cls)
        hground hsites hformed hsome.symm (fun _ hcls => Option.some.inj hcls ▸ hvalue)
        hstack
    | _ => exact .failAt trivial

theorem resultOf_ok (hground : Ground plan origins acts world)
    (hfunction : FunctionOk plan ⟨world.heap, origins⟩ function)
    (hflow : ∀ value, flow = .ret value → ValueOk plan ⟨world.heap, origins⟩ value) :
    ∃ value, resultOf world function flow = .ok value ∧
      ValueOk plan ⟨world.heap, origins⟩ value := by
  obtain ⟨regions, hplace, -, -, hinit⟩ := hfunction
  unfold resultOf
  by_cases hisInit : function.isInit = true
  · rw [if_pos hisInit]
    obtain ⟨outer, hchain⟩ := Heap.chain_eq_cons hplace.chain_ne_nil
    obtain ⟨value, hvalue⟩ := Heap.binds_iff.1 (hinit hisInit)
    refine ⟨value, ?_, (hground.values.heap.bindings _).get? hvalue⟩
    have hfirst : (world.heap.chain function.closure)[0]? = some function.closure := by
      rw [show world.heap.chain function.closure = function.closure ::
        outer from hchain]
      rfl
    have hthis : (world.heap.bindings function.closure).get? "this" = some value :=
      hvalue
    simp only [Heap.getAt, Heap.ancestor, hfirst, hthis]
  · rw [if_neg hisInit]
    cases flow with
    | ret value => exact ⟨_, rfl, hflow _ rfl⟩
    | _ => exact ⟨.nothing, rfl, trivial⟩

private theorem lands_outside (hground : Ground plan origins (act :: acts) world)
    (hflow : ∀ value, flow = .ret value → ValueOk plan ⟨world.heap, origins⟩ value)
    (houtside : Outside plan ⟨world.heap, origins⟩ (act :: acts) pending) :
    Lands plan discipline excuse origins ⟨world.heap, world.frames, act :: acts⟩
      ⟨world, .flow flow, pending⟩ := by
  cases houtside with
  | @block env outer regions acts span body names _ hinside hstack =>
    have hplace : Place plan ⟨world.heap, origins⟩ outer regions :=
      hground.place.outside hinside.1
    exact .inr ⟨_, ⟨hground.move ⟨outer, regions, false⟩ hplace, .flow hflow hstack⟩,
      .single (.closeBlock hinside)⟩
  | body hfunction hstack =>
    exact .here ⟨hground, .flow hflow (.result hfunction hstack)⟩
  | script => exact .here ⟨hground, .flow hflow .done⟩

theorem lands_proceed {next : Pending} (hground : Ground plan origins acts world)
    (hflow : ∀ value, flow = .ret value → ValueOk plan ⟨world.heap, origins⟩ value)
    (hstack : FlowStack plan ⟨world.heap, origins⟩ acts [] (next :: pending)) :
    Lands plan discipline excuse (origins ++ openedByProceed ctx world next)
      ⟨world.heap, world.frames, acts⟩ (proceed ctx world pending flow next) := by
  cases hstack with
  | @seq env regions acts _ rest _ hsites hformed houtside =>
    simp only [openedByProceed, append_nil]
    rw [Regions.declare_nil] at hsites
    cases rest with
    | nil =>
      have hproceed : proceed ctx world pending flow (.seq [] env) =
          ⟨world, .flow flow, pending⟩ := by
        cases flow <;> rfl
      rw [hproceed]
      exact lands_outside hground hflow houtside
    | cons stmt rest =>
      simp only [Stmt.listSites, append_subset] at hsites
      simp only [Stmt.listFormed, Bool.and_eq_true] at hformed
      cases flow with
      | normal =>
        exact .here
          ⟨hground, .exec hsites.1 hformed.1 (.seq hsites.2 hformed.2 houtside)⟩
      | ret value => exact lands_outside hground hflow houtside
      | brk => exact lands_outside hground hflow houtside
  | loopBody hcond hbody hstack =>
    cases flow with
    | normal =>
      exact .stay rfl ⟨hground, .evalIn hcond (.loopTest hcond hbody hstack)⟩
    | brk => exact .stay rfl ⟨hground, .normal hstack⟩
    | ret value => exact .stay rfl ⟨hground, .flow hflow hstack⟩
  | @result act acts _ function _ hfunction hstack =>
    simp only [proceed]
    obtain ⟨value, hresult, hok⟩ := resultOf_ok hground hfunction hflow
    rw [hresult]
    exact .stay rfl ⟨hground, .value hok (hstack _)⟩

end Outcomes

/-! ## Before the entry point -/

section Prologue

theorem lands_prologueClass {place : Span} {decl : ClassDecl} {rest : List Stmt}
    {superclass : Option Class}
    (hground : Ground plan origins [⟨globalScope, [], false⟩] world)
    (hrest : DeclarationsOk plan (.classDecl place decl :: rest))
    (hmain : MainAhead ⟨world.heap, origins⟩ (.classDecl place decl :: rest))
    (hmatch : superclass.isSome = decl.superclass.isSome)
    (hsuper : ∀ cls, superclass = some cls → ClassOk plan ⟨world.heap, origins⟩ cls) :
    Lands plan discipline excuse
      (origins ++ if superclass.isSome then [.superclass decl] else [])
      ⟨world.heap, world.frames, [⟨globalScope, [], false⟩]⟩
      (declareClass world [.seq rest globalScope, .enterMain] globalScope decl
        superclass) := by
  have hhead := hrest.head
  simp only [Stmt.sites, Stmt.formed] at hhead
  obtain ⟨heap, value, hmade, hsite, hsets, hground'⟩ :=
    hground.declareClass hhead.1 hhead.2 hmatch hsuper
      [.seq rest globalScope, .enterMain]
  rw [hmade]
  have e := (hsets.extension origins).append
    (if superclass.isSome then [Origin.superclass decl] else [])
  refine .inr ⟨_, ⟨hground', .next hrest.tail ((hmain.mono e).tail ?_)⟩,
    .single (.declare (.inr rfl) hsite hsets)⟩
  intro name hname
  obtain rfl := mem_singleton.1 hname
  exact hsets.binds

private theorem lands_prologueDeclaration {stmt : Stmt} {rest : List Stmt}
    (hground : Ground plan origins [⟨globalScope, [], false⟩] world)
    (hrest : DeclarationsOk plan (stmt :: rest))
    (hmain : MainAhead ⟨world.heap, origins⟩ (stmt :: rest)) :
    Lands plan discipline excuse (origins ++ openedByExecute stmt)
      ⟨world.heap, world.frames, [⟨globalScope, [], false⟩]⟩
      (execute ctx world [.seq rest globalScope, .enterMain] globalScope stmt) := by
  cases stmt with
  | funcDecl span decl =>
    obtain ⟨heap, frames, output⟩ := world
    have hhead := hrest.head
    simp only [Stmt.sites, Stmt.formed, cons_subset] at hhead
    simp only [openedByExecute, append_nil]
    obtain ⟨hsets, hground'⟩ := hground.declareFunction hhead.1.1 hhead.1.2 hhead.2 rfl
    refine .inr
      ⟨_, ⟨hground', .next hrest.tail ((hmain.mono (hsets.extension origins)).tail ?_)⟩,
        .single (.function hhead.1.1 hsets)⟩
    intro name hname
    obtain rfl := mem_singleton.1 hname
    exact hsets.binds
  | classDecl span decl =>
    simp only [openedByExecute, append_nil, execute]
    cases hsuper : decl.superclass with
    | none =>
      have hlands :=
        @lands_prologueClass plan discipline excuse origins world span decl rest none
        hground hrest hmain (by rw [hsuper]; rfl) (fun _ hcls => by cases hcls)
      rwa [Option.isSome_none, if_neg Bool.false_ne_true, append_nil] at hlands
    | some superclass =>
      have hhead := hrest.head
      obtain ⟨name, found, methods, place⟩ := decl
      obtain rfl : found = some superclass := hsuper
      simp only [Stmt.sites, Stmt.formed, ClassDecl.sites, ClassDecl.formed,
        append_subset, Bool.and_eq_true] at hhead
      -- A parsed class names its superclass by a plain variable.
      cases superclass with
      | var access id other =>
        have hread : ⟨.read id other, [], false⟩ ∈ plan := by
          simpa [Expr.sites] using hhead.1.1
        exact .here ⟨hground, .lookup hread rfl hrest hmain⟩
      | _ => cases hhead.2.1
  | _ => cases hrest.declarations _ mem_cons_self

private theorem lands_enterMain
    (hground : Ground plan origins [⟨globalScope, [], false⟩] world)
    (hmain : world.heap.Binds globalScope entryPoint) :
    Lands plan discipline excuse (origins ++ openedByProceed ctx world .enterMain)
      ⟨world.heap, world.frames, [⟨globalScope, [], false⟩]⟩
      (proceed ctx world [] .normal .enterMain) := by
  simp only [proceed, openedByProceed]
  rcases hground.readGlobal entryPoint globalScope
    with ⟨main, hread, -, hok⟩ | ⟨_, -, hnot⟩
  · simp only [hread]
    refine lands_enter hground fun frames hpushed => ?_
    exact lands_invoke hpushed (fun _ => .leave .done) hok (fun _ harg => by cases harg)
  · exact (hnot hmain).elim

end Prologue

end Machine

/-! ## One transition -/

/-- Every transition from a state in which all code stands leads to such a state, or
fails with an excuse. -/
theorem Standing.step {plan : List Site} {origins : List Origin} {acts : List Act}
    {ctx : Context} {m : Machine} (h : Standing plan origins acts m)
    (hagrees : Agrees plan ctx.resolution) :
    Lands plan ctx.discipline (m.MayMiss ctx) (origins ++ m.opened ctx)
      ⟨m.world.heap, m.world.frames, acts⟩ (m.step ctx) := by
  obtain ⟨world, control, pending⟩ := m
  obtain ⟨hground, hcontrol⟩ := h
  cases hcontrol with
  | eval hsites hstack => exact Machine.lands_evaluate hagrees hground hsites hstack
  | exec hsites hformed hstack =>
    exact Machine.lands_execute hground hsites hformed hstack
  | native hstack =>
    simp only [Machine.opened, append_nil]
    exact Machine.lands_callNative hground hstack
  | value hvalue hstack =>
    cases pending with
    | nil =>
      exact .stay rfl ⟨hground, .value hvalue hstack⟩
    | cons next pending => exact Machine.lands_receive hagrees hground hvalue hstack
  | flow hflow hstack =>
    cases pending with
    | nil =>
      exact .stay rfl ⟨hground, .flow hflow hstack⟩
    | cons next pending => exact Machine.lands_proceed hground hflow hstack
  | @next rest hrest hmain =>
    cases rest with
    | nil =>
      refine .stay rfl ⟨hground, .enterMain ?_⟩
      rcases hmain with hbinds | ⟨stmt, hstmt, -⟩
      · exact hbinds
      · cases hstmt
    | cons stmt rest => exact .stay rfl ⟨hground, .declaration hrest hmain⟩
  | declaration hrest hmain =>
    exact Machine.lands_prologueDeclaration hground hrest hmain
  | @lookup span id name place decl rest hread hsome hrest hmain =>
    simp only [Machine.opened, Machine.openedByEvaluate, append_nil, Machine.step,
      Machine.evaluate]
    rcases hground.read hagrees hground.place hread with
      ⟨value, hvalue, hok⟩ | ⟨known, hvalue, hdistance⟩
    · rw [hvalue]
      exact .here ⟨hground, .found hok hsome hrest hmain⟩
    · rw [hvalue]
      exact .failAt (.inl ⟨_, _, .var, hdistance⟩)
  | @found value span place decl rest hvalue hsome hrest hmain =>
    cases value with
    | cls cls =>
      exact @Machine.lands_prologueClass plan _ _ origins world place decl rest
        (some cls) hground hrest hmain hsome.symm
        (fun _ hcls => Option.some.inj hcls ▸ hvalue)
    | _ => exact .failAt trivial
  | enterMain hmain => exact Machine.lands_enterMain hground hmain

end Treewalk
