import Treewalk.Proofs.Machine.Arguments
import Treewalk.Proofs.Machine.Supply
import Treewalk.Proofs.Machine.Writes
import Treewalk.Proofs.Scope.Ground
import Treewalk.Proofs.Scope.Marks

/-!
# The short way to a capability

A call that is marked goes straight to the capability of its name; any other call by
name looks the name up after its arguments, in the frame of the call first. The short
way is exact as long as the name means the capability whenever such a call is made. In a
program that assigns no name of a capability this holds in every state of a run
(`Program.Steady`): what the program does not declare at its top level keeps its global
meaning, and a frame can hold the name only because an argument was spelled so, which
then is the capability as well.

* `Machine.delivers_startCall_iff`: with the right number of arguments both ways come to
  the same end.
* `Session.marked_calls_agree`: so a marked call can be made without its mark; with a
  wrong number of arguments the two ways differ in the error, and no marked call asks
  for a capability that there is not.
-/

namespace Treewalk

open List

variable {name : String} {world : World} {access : Span} {env : ScopeId}
  {natives : List Native} {native : Native} {m : Machine} {make : Program → Task}
  {pending : List Pending} {span : Span} {id calleeId : NodeId} {args : List Expr}
  {values : List Value} {fault : NativeFault}

private theorem Native.name_of_named? (h : Native.named? name natives = some native) :
    native.name = name := by
  have hbeq := List.find?_some h
  exact beq_iff_eq.1 hbeq

/-! ## Names that keep their meaning -/

/-- The name that an expression assigns. -/
def Expr.target? : Expr → Option String
  | .assign _ _ name _ => some name
  | _ => none

/-- The names that a program assigns, wherever it does. -/
def Program.targets (program : Program) : List String :=
  program.parts.filterMap Expr.target?

namespace Program

/-- What a run of the program may hold if it assigns no name of a capability. -/
def stock (program : Program) (natives : List Native) : Stock where
  code expr := expr ∈ program.parts
  capability name := (Native.named? name natives).isSome = true
  ground := 1
  declares := program.Declares
  assigns name := Native.named? name natives = none
  fault := True
  failure := True

/-- The names of capabilities that the program does not declare mean the
capabilities. -/
def Spares (program : Program) (natives : List Native) (heap : Heap) : Prop :=
  ∀ name native, Native.named? name natives = some native → ¬program.Declares name →
    (heap.bindings globalScope).get? name = some (.callable (.native native))

/-- All code is that of the program, and the capabilities that it does not declare have
their names. -/
structure Steady (program : Program) (natives : List Native) (m : Machine) : Prop where
  supplies : (program.stock natives).Supplies m
  spares : program.Spares natives m.world.heap

variable {program : Program} {natives : List Native} {ctx : Context}

private theorem Steady.step (h : program.Steady natives m)
    (hsuits : (program.stock natives).Suits ctx) :
    program.Steady natives (m.step ctx) where
  supplies := h.supplies.step hsuits
  spares := by
    intro name native hname hundeclared
    have hunwritten : ¬m.Writes globalScope name := by
      rintro (hdeclares | ⟨env, hassigns, -⟩)
      · exact hundeclared (h.supplies.declares hsuits hdeclares Nat.zero_lt_one)
      · have hnone : Native.named? name natives = none := h.supplies.assigns hassigns
        rw [hname] at hnone
        cases hnone
    have hglobal : globalScope < m.world.heap.scopes.size := h.supplies.world.ground
    rw [(Machine.step_edits ctx m).get?_bindings hglobal hunwritten]
    exact h.spares name native hname hundeclared

private theorem Steady.of_delivers {base : List Pending} {final : Machine}
    (h : program.Steady natives m) (hsuits : (program.stock natives).Suits ctx)
    (hdelivers : Machine.Delivers ctx base m final) :
    program.Steady natives final :=
  hdelivers.keeps (fun _ hsteady _ => hsteady.step hsuits) h

private theorem Steady.of_reaches {start : Machine} (h : program.Steady natives start)
    (hsuits : (program.stock natives).Suits ctx)
    (hreaches : Machine.Reaches ctx start m) :
    program.Steady natives m := by
  induction hreaches with
  | start => exact h
  | step _ ih => exact ih.step hsuits

private theorem spares_start (program : Program) (natives : List Native) :
    program.Spares natives (.start natives) := by
  intro name native hname _
  have hbindings : (Heap.start natives).bindings globalScope =
      natives.map fun native => (native.name, .callable (.native native)) := by
    simp [Heap.start, Heap.makeScope, Heap.empty, Heap.bindings, globalScope]
  rw [hbindings]
  clear hbindings
  induction natives with
  | nil => cases hname
  | cons first rest ih =>
    rw [Native.named?, List.find?_cons] at hname
    rw [map_cons, Table.get?]
    by_cases hfirst : first.name = name
    · rw [beq_iff_eq.2 hfirst] at hname
      rw [if_pos hfirst, Option.some.inj hname]
    · rw [beq_eq_false_iff_ne.2 hfirst] at hname
      rw [if_neg hfirst]
      exact ih hname

private theorem listContents_task {use : Use} (hmake : use.task? = some make)
    (program : Program) (env : ScopeId) :
    Stmt.listContents env (make program).stmts =
      Stmt.listContents env program.stmts := by
  cases use with
  | line =>
    obtain rfl := Option.some.inj hmake
    unfold Task.ofLine
    split
    · rename_i span expr hstmts
      rw [hstmts]
      simp [Task.stmts, Stmt.listContents, Stmt.contents, Stmt.parts, Stmt.declared]
    · rfl
  | run =>
    obtain rfl := Option.some.inj hmake
    rfl
  | prepare => cases hmake

private theorem steady_start {use : Use} (hmake : use.task? = some make)
    (hformed : Stmt.listFormed program.stmts = true) :
    program.Steady natives ((make program).machine (.start natives)) where
  supplies := by
    refine .of_task (fun content hcontent => ?_) ?_ ?_
    · obtain ⟨native, hnative, rfl⟩ := Heap.native_of_mem_contents_start hcontent
      refine ⟨fun _ hmem => absurd hmem not_mem_nil, fun other hother => ?_,
        fun _ => trivial⟩
      cases hother
      exact List.find?_isSome.2 ⟨native, hnative, beq_self_eq_true native.name⟩
    · simp [Heap.start, Heap.makeScope, Heap.empty, stock]
    · rw [listContents_task hmake]
      refine Stock.covers_flatMap.2 fun stmt hstmt =>
        Stock.covers_stmt.2 ⟨fun expr hexpr => ?_, ?_⟩
      · exact Stmt.parts_subset_listParts hstmt hexpr
      · exact fun name hname _ => declares_of_mem_declared hformed hstmt hname
  spares := by
    rw [Task.world_machine]
    exact spares_start program natives

/-! ## Both ways of a call -/

/-- The call is one of the capability: the program does not declare its name, and
neither the place of the name nor an argument spelled like it is in sight of a scope
that does. -/
structure Direct (program : Program) (natives : List Native) (resolution : Resolution)
    (native : Native) (name : String) (calleeId : NodeId)
    (args : List Expr) : Prop where
  named : Native.named? name natives = some native
  undeclared : ¬program.Declares name
  callee : resolution.distance? calleeId = none
  arguments : ∀ span id, .var span id name ∈ args → resolution.distance? id = none

/-- A world in which arguments are evaluated, under a frame without values. -/
structure Clear (program : Program) (natives : List Native) (world : World) : Prop where
  keeps : (program.stock natives).Keeps world
  spares : program.Spares natives world.heap
  topNames : world.frames.topNames = some []

private theorem Clear.of_delivers {world : World} {expr : Expr} {env : ScopeId}
    {final : Machine} (h : program.Clear natives world)
    (hsuits : (program.stock natives).Suits ctx) (hcode : expr.parts ⊆ program.parts)
    (hdelivers : Machine.Delivers ctx [] ⟨world, .eval expr env, []⟩ final) :
    program.Clear natives final.world := by
  have hstart : program.Steady natives ⟨world, .eval expr env, []⟩ :=
    ⟨⟨h.keeps, Stock.covers_code.2 fun _ hmem => hcode hmem,
      Stock.covers_nil.2 trivial⟩, h.spares⟩
  have hfinal := hstart.of_delivers hsuits hdelivers
  exact ⟨hfinal.supplies.world, hfinal.spares,
    (Frames.topNames_eq_of_retouched hdelivers.retouched_expr).trans h.topNames⟩

private theorem Steady.clear
    (h : program.Steady natives
      ⟨world, .eval (.call span id (.var access calleeId name) args) env, pending⟩) :
    program.Clear natives ⟨world.heap, world.frames.push name, world.output⟩ ∧
      Expr.listParts args ⊆ program.parts := by
  refine ⟨⟨.of_holds (h.supplies.world.holds.push name) h.supplies.world.ground,
    h.spares, rfl⟩, fun expr hexpr => ?_⟩
  exact Stock.covers_code.1 h.supplies.control expr (by simp [Expr.parts, hexpr])

end Program

namespace Machine

open Program

section

variable {program : Program} {natives : List Native} {ctx : Context} {native : Native}
  {name : String} {calleeId : NodeId} {args : List Expr}

/-- A name in no frame and in sight of no scope is read globally. -/
theorem read_of_spares (hspares : program.Spares natives world.heap)
    (hname : Native.named? name natives = some native)
    (hundeclared : ¬program.Declares name) (hframe : ctx.frameValue? world name = none)
    (hdistance : ctx.resolution.distance? id = none) :
    ctx.read world name id env = .ok (.callable (.native native)) := by
  simp only [Context.read, hframe, hdistance, World.readGlobal,
    hspares name native hname hundeclared]

private theorem frameValue?_of_topNames (h : world.frames.topNames = some []) :
    ctx.frameValue? world name = none := by
  unfold Context.frameValue?
  split
  · exact Frames.get?_of_topNames h name
  · rfl

private theorem Arguments.clear {world' : World}
    (h : Arguments ctx env world args (.ok values) world')
    (hsuits : (program.stock natives).Suits ctx)
    (hdirect : program.Direct natives ctx.resolution native name calleeId args)
    (hcode : Expr.listParts args ⊆ program.parts)
    (hclear : program.Clear natives world) :
    program.Clear natives world' ∧ ∀ value,
      (name, value) ∈ namedArguments (args.zip values) →
      value = .callable (.native native) := by
  have hparts : ∀ expr ∈ args, expr.parts ⊆ program.parts :=
    fun expr hexpr part hpart =>
    hcode (Expr.parts_subset_listParts hexpr hpart)
  obtain ⟨hclear', hvalues⟩ := h.keeps (P := program.Clear natives)
    (Q := fun expr value => ∀ span id, expr = .var span id name →
      value = .callable (.native native))
    (fun expr hexpr _ _ hclear first =>
      hclear.of_delivers hsuits (hparts expr hexpr) first)
    (by
      rintro _ hexpr world world' value hclear first span id rfl
      have hread := first.read_of_var
      rw [read_of_spares hclear.spares hdirect.named hdirect.undeclared
        (frameValue?_of_topNames hclear.topNames)
          (hdirect.arguments span id hexpr)] at hread
      exact (Except.ok.inj hread).symm)
    hclear
  refine ⟨hclear', fun value hmem => ?_⟩
  obtain ⟨⟨expr, value'⟩, harg, heq⟩ := mem_filterMap.1 hmem
  cases expr with
  | var span id argName =>
    cases heq
    exact hvalues values rfl _ harg span id rfl
  | _ => cases heq

/-- When the arguments are known the name still means the capability: the frame of the
call holds the name only if an argument is the capability itself. -/
private theorem Arguments.read_callee {world' : World}
    (h : Arguments ctx env world args (.ok values) world')
    (hsuits : (program.stock natives).Suits ctx)
    (hdirect : program.Direct natives ctx.resolution native name calleeId args)
    (hcode : Expr.listParts args ⊆ program.parts)
    (hclear : program.Clear natives world) :
    ctx.read ⟨world'.heap, world'.frames.addAll (namedArguments (args.zip values)),
      world'.output⟩ name calleeId env = .ok (.callable (.native native)) := by
  obtain ⟨hclear', hnative⟩ := h.clear hsuits hdirect hcode hclear
  cases hframe : ctx.frameValue?
      ⟨world'.heap, world'.frames.addAll (namedArguments (args.zip values)),
        world'.output⟩ name with
  | none =>
    exact read_of_spares hclear'.spares hdirect.named hdirect.undeclared hframe
      hdirect.callee
  | some value =>
    have hget : (Table.putAll [] (namedArguments (args.zip values))).get? name =
        some value := by
      unfold Context.frameValue? at hframe
      split at hframe
      · rwa [Frames.get?_addAll_of_topNames hclear'.topNames] at hframe
      · cases hframe
    rcases Table.get?_putAll hget with hnone | hmem
    · cases hnone
    · simp only [Context.read, hframe, hnative value hmem]

private theorem complete_of_read {entries : List (Expr × Value)}
    (hnamed : Native.named? name natives = some native)
    (hread : ctx.read ⟨world.heap, world.frames.addAll (namedArguments entries),
      world.output⟩ name calleeId env = .ok (.callable (.native native))) :
    complete ctx world pending ⟨span, name, .named access calleeId, env⟩ entries =
      if entries.length = native.arity then
        complete ctx world pending ⟨span, name, .native, env⟩ entries
      else failAt ⟨world.heap, world.frames.addAll (namedArguments entries),
        world.output⟩ pending (.arity name native.arity entries.length) none := by
  have hname := Native.name_of_named? hnamed
  simp only [complete, hread, invoke, Value.callable?, Callable.arity,
    length_map, hname]

variable {world : World} {pending base : List Pending} {span access : Span}
  {id : NodeId} {env : ScopeId} {final : Machine}

/-- With the right number of arguments, a call of a capability comes to the same end
whether it asks for the capability at once or looks its name up. -/
theorem delivers_startCall_iff (hsuits : (program.stock natives).Suits ctx)
    (hdirect : program.Direct natives ctx.resolution native name calleeId args)
    (hsteady : program.Steady natives
      ⟨world, .eval (.call span id (.var access calleeId name) args) env, pending⟩)
    (harity : args.length = native.arity) (hbase : base <:+ pending) :
    Delivers ctx base (startCall ctx world pending ⟨span, name, .native, env⟩
      args) final ↔
      Delivers ctx base
      (startCall ctx world pending ⟨span, name, .named access calleeId, env⟩ args)
      final := by
  obtain ⟨hclear, hcode⟩ := hsteady.clear
  unfold startCall enter
  by_cases hdeep : world.frames.depth > ctx.settings.maxCallDepth
  · rw [if_pos hdeep, if_pos hdeep]
  · have hleave : base <:+ .leave (some span) :: pending :=
      hbase.trans (suffix_cons _ _)
    simp only [if_neg hdeep, delivers_nextArgument_iff hleave]
    refine exists_congr fun result => exists_congr fun world' =>
      and_congr_right fun hargs => ?_
    cases result with
    | error error => exact Iff.rfl
    | ok values =>
      have hlength : (args.zip values).length = native.arity := by
        rw [length_zip, hargs.length_eq, Nat.min_self, harity]
      simp only [settle, reverse_nil, nil_append]
      rw [complete_of_read hdirect.named (hargs.read_callee hsuits hdirect hcode
        hclear), if_pos hlength]

end

end Machine

/-! ## Taking a mark away -/

/-- The call of this number is not marked any more. -/
def Resolution.unmark (resolution : Resolution) (id : NodeId) : Resolution :=
  { resolution with nativeCalls := resolution.nativeCalls.erase id }

private theorem Resolution.isNativeCall_unmark (resolution : Resolution)
    (id id' : NodeId) :
    (resolution.unmark id).isNativeCall id' =
      (id' != id && resolution.isNativeCall id') := by
  unfold unmark isNativeCall
  rw [Std.TreeSet.contains_erase]
  by_cases hid : id' = id
  · simp [hid]
  · have hcmp : compare id id' ≠ .eq := by simpa using Ne.symm hid
    rw [bne_iff_ne.2 hcmp, bne_iff_ne.2 hid]

/-- The context in which the call of this number is not marked. -/
def Context.unmark (ctx : Context) (id : NodeId) : Context :=
  { ctx with resolution := ctx.resolution.unmark id }

private theorem Context.isNativeCall_unmark_self (ctx : Context) (id : NodeId) :
    (ctx.unmark id).resolution.isNativeCall id = false := by
  rw [Context.unmark, Resolution.isNativeCall_unmark, bne_self_eq_false, Bool.false_and]

private theorem Program.Direct.unmark {program : Program} {resolution : Resolution}
    {name : String} (h : program.Direct natives resolution native name calleeId args)
    (id : NodeId) :
    program.Direct natives (resolution.unmark id) native name calleeId args :=
  ⟨h.named, h.undeclared, h.callee, h.arguments⟩

namespace Machine

variable {program : Program} {natives : List Native} {ctx : Context} {native : Native}
  {name : String} {span access : Span} {id calleeId : NodeId} {args : List Expr}
  {base : List Pending} {m final : Machine}

private theorem step_unmark
    (h : ∀ span callee args env, m.control ≠ .eval (.call span id callee args) env) :
    m.step (ctx.unmark id) = m.step ctx := by
  obtain ⟨world, control, pending⟩ := m
  cases control with
  | eval expr env =>
    cases expr with
    | call span id' callee args =>
      have hid : id' ≠ id := by
        rintro rfl
        exact h span callee args env rfl
      cases callee with
      | var access calleeId name =>
        have hmark : (ctx.unmark id).resolution.isNativeCall id' =
            ctx.resolution.isNativeCall id' := by
          rw [Context.unmark, Resolution.isNativeCall_unmark, bne_iff_ne.2 hid,
            Bool.true_and]
        simp only [step, evaluate, evaluateCall, hmark]
        rfl
      | _ => rfl
    | _ => rfl
  | exec stmt env => rfl
  | native name args => rfl
  | value value =>
    cases pending with
    | nil => rfl
    | cons entry pending => cases entry <;> rfl
  | flow flow =>
    cases pending with
    | nil => rfl
    | cons entry pending => cases entry <;> rfl
  | fail error => cases pending <;> rfl

private theorem suits_unmark (h : (program.stock natives).Suits ctx) (id : NodeId) :
    (program.stock natives).Suits (ctx.unmark id) where
  fault := h.fault
  failure := h.failure
  marked := by
    intro span id' access calleeId name args hcode hmark
    rw [Context.unmark, Resolution.isNativeCall_unmark, Bool.and_eq_true] at hmark
    exact h.marked span id' access calleeId name args hcode hmark.2
  assigns := h.assigns

/-- A call of a capability that is marked comes to the same end without its mark. -/
theorem delivers_unmark_iff (hsuits : (program.stock natives).Suits ctx)
    (hids : program.ids.Nodup)
    (hcall : .call span id (.var access calleeId name) args ∈ program.parts)
    (hmarked : ctx.resolution.isNativeCall id = true)
    (hdirect : program.Direct natives ctx.resolution native name calleeId args)
    (harity : args.length = native.arity) (hsteady : program.Steady natives m)
    (habove : base <:+ m.pending) :
    Delivers ctx base m final ↔ Delivers (ctx.unmark id) base m final := by
  have hunmarked := ctx.isNativeCall_unmark_self id
  have hsuits' := suits_unmark hsuits id
  -- The calls of this number are one call, and the two contexts agree on all other
  -- transitions.
  have hcases : ∀ {m : Machine}, program.Steady natives m →
      m.step (ctx.unmark id) = m.step ctx ∨ ∃ world env pending,
        m = ⟨world, .eval (.call span id (.var access calleeId name) args) env,
          pending⟩ := by
    intro m hsteady
    by_cases hevaluates : ∃ span callee args env, m.control =
      .eval (.call span id callee args) env
    · obtain ⟨span', callee', args', env, hcontrol⟩ := hevaluates
      have hcode := hsteady.supplies.control
      rw [hcontrol] at hcode
      have hnodup : (program.parts.filterMap Expr.id?).Nodup := by
        rw [Program.parts, Stmt.ids_listParts]
        exact hids
      have hsame := eq_of_nodup_filterMap hnodup hcode.self hcall rfl rfl
      obtain ⟨world, control, pending⟩ := m
      exact .inr ⟨world, env, pending, by rw [← hsame, ← hcontrol]⟩
    · exact .inl (step_unmark fun span callee args env hcontrol =>
        hevaluates ⟨span, callee, args, env, hcontrol⟩)
  constructor
  · intro h
    refine h.exchange (fun m hm => hm.step hsuits) (fun m hm habove hnext => ?_)
      hsteady habove
    rcases hcases hm with hsame | ⟨world, env, pending, rfl⟩
    · rwa [hsame]
    · rw [step_marked hmarked] at hnext
      rw [step_unmarked hunmarked]
      exact (delivers_startCall_iff hsuits' (hdirect.unmark id) hm harity habove).1
        hnext
  · intro h
    refine h.exchange (fun m hm => hm.step hsuits') (fun m hm habove hnext => ?_)
      hsteady habove
    rcases hcases hm with hsame | ⟨world, env, pending, rfl⟩
    · rwa [← hsame]
    · rw [step_unmarked hunmarked] at hnext
      rw [step_marked hmarked]
      exact (delivers_startCall_iff hsuits hdirect hm harity habove).2 hnext

/-! ## A wrong number of arguments -/

/-- How a call ends whose capability faults. -/
def faulted (policy : FaultPolicy) (world : World) (pending : List Pending)
    (span : Span) (fault : NativeFault) : Machine :=
  let (stamp, heap) := world.heap.draw
  match policy with
  | .value => ⟨⟨heap, world.frames, world.output⟩, .value (.fault stamp fault), pending⟩
  | .error =>
    ⟨⟨heap, world.frames, world.output⟩,
      .fail ⟨.nativeFault fault.capability fault.message, some span⟩, pending⟩

section

variable {world world' : World} {pending : List Pending} {env : ScopeId}
  {values : List Value}

private theorem delivers_fault (hdepth : world.frames.depth ≤ ctx.settings.maxCallDepth)
    (hargs : Arguments ctx env ⟨world.heap, world.frames.push name, world.output⟩ args
      (.ok values) world')
    (hfault : ∀ answers, Native.dispatch ctx.natives answers name values = .error fault)
    (hcapability : fault.capability = name) :
    Delivers ctx pending (startCall ctx world pending ⟨span, name, .native, env⟩ args)
      (faulted ctx.settings.faultPolicy ⟨world'.heap, world.frames, world'.output⟩
        pending span fault) := by
  have hvalues : (args.zip values).map (·.2) = values :=
    map_snd_zip (Nat.le_of_eq hargs.length_eq)
  refine (delivers_startCall_iff_of_arguments hdepth hargs).2
    (.later (fun hend => by cases hend.1) ?_)
  simp only [complete, step, callNative, hvalues, hfault]
  cases hpolicy : ctx.settings.faultPolicy with
  | value =>
    refine .later (fun hend => cons_ne_self _ _ hend.2) ?_
    simp only [step, receive, hargs.pop_frames, faulted]
    exact .here rfl rfl
  | error =>
    refine .later (fun hend => cons_ne_self _ _ hend.2) ?_
    simp only [step, failAt, unwind, hargs.pop_frames, faulted, hcapability]
    exact .here rfl rfl

private theorem delivers_arity (hsuits : (program.stock natives).Suits ctx)
    (hdirect : program.Direct natives ctx.resolution native name calleeId args)
    (hsteady : program.Steady natives
      ⟨world, .eval (.call span id (.var access calleeId name) args) env, pending⟩)
    (harity : args.length ≠ native.arity)
    (hdepth : world.frames.depth ≤ ctx.settings.maxCallDepth)
    (hargs : Arguments ctx env ⟨world.heap, world.frames.push name, world.output⟩ args
      (.ok values) world') :
    Delivers ctx pending
      (startCall ctx world pending ⟨span, name, .named access calleeId, env⟩ args)
      ⟨⟨world'.heap, world.frames, world'.output⟩,
        .fail ⟨.arity name native.arity args.length, some span⟩, pending⟩ := by
  obtain ⟨hclear, hcode⟩ := hsteady.clear
  have hlength : (args.zip values).length = args.length := by
    rw [length_zip, hargs.length_eq, Nat.min_self]
  refine (delivers_startCall_iff_of_arguments hdepth hargs).2 ?_
  rw [complete_of_read hdirect.named (hargs.read_callee hsuits hdirect hcode hclear),
    hlength, if_neg harity]
  refine .later (fun hend => cons_ne_self _ _ hend.2) ?_
  simp only [failAt, step, unwind, hargs.pop_frames]
  exact .here rfl rfl

end

end Machine

/-! ## Sessions -/

/-- The fault of a capability that there is does not say that there is none. -/
private theorem Native.message_ne_of_named? {answers : Answers} {args : List Value}
    (hnamed : Native.named? name natives = some native)
    (hfault : Native.dispatch natives answers name args = .error fault) :
    fault.message ≠ "no such native capability" := by
  have hchar : ∀ {message : String} (c : Char), c ∈ message.toList →
      c ∉ "no such native capability".toList →
        message ≠ "no such native capability" := by
    rintro message c hmem hnot rfl
    exact hnot hmem
  -- Every other message has a character that this one has not.
  simp only [dispatch, hnamed] at hfault
  split at hfault
  · unfold invoke at hfault
    split at hfault
    · cases hfault
    · split at hfault <;> cases hfault
      exact hchar ':' (by simp) (by decide)
    · cases hfault
      exact hchar 'x' (by decide) (by decide)
    · split at hfault
      · cases hfault
        exact hchar ':' (by simp) (by decide)
      · split at hfault <;> cases hfault
        exact hchar 'M' (by decide) (by decide)
  · cases hfault
    exact hchar '(' (by simp) (by decide)

namespace Session

open Machine

variable {settings : RunSettings} {natives : List Native} {source : String}
  {session : Session} {program : Program}

private theorem direct_of_prepare
    (hprepare : (start settings natives).prepare source = (session, .ok program))
    (hcall : .call span id (.var access calleeId name) args ∈ program.parts)
    (hmarked : session.resolution.isNativeCall id = true) :
    ∃ native, program.Direct natives session.resolution native name calleeId args := by
  have hbounded := bounded_start settings natives
  obtain ⟨hnamed, hundeclared, -, hdistance⟩ :=
    (isNativeCall_prepare_iff hbounded hprepare hcall).1 hmarked
  obtain ⟨native, hnative⟩ := Option.isSome_iff_exists.1 hnamed
  refine ⟨native, hnative, hundeclared, hdistance, fun span' id' harg => ?_⟩
  rw [distance?_prepare_of_call hbounded hprepare hcall harg, hdistance]

private theorem suits_of_prepare
    (hprepare : (start settings natives).prepare source = (session, .ok program))
    (htargets : ∀ name ∈ program.targets, Native.named? name natives = none)
    (host : Host) :
    (program.stock natives).Suits (session.context host) where
  fault := fun _ => trivial
  failure := fun _ => trivial
  marked := by
    intro span id access calleeId name args hcall hmarked
    obtain ⟨native, hdirect⟩ := direct_of_prepare hprepare hcall hmarked
    exact Option.isSome_iff_exists.2 ⟨native, hdirect.named⟩
  assigns := fun _ _ _ _ hassign => htargets _ (mem_filterMap.2 ⟨_, hassign, rfl⟩)

/-- In the first program of a session, if it assigns no name of a capability, a call
that is marked is a call of a capability. With the right number of arguments it comes to
the same end, in the same world, whether it is marked or not. With any other number the
capability faults, as the policy for faults says, and the call that is not marked fails
for its number of arguments. A capability that there is not is never asked for. -/
theorem marked_calls_agree {use : Use} {make : Program → Task} {host : Host}
    {m : Machine}
    (hprepare : (start settings natives).prepare source = (session, .ok program))
    (htargets : ∀ name ∈ program.targets, Native.named? name natives = none)
    (hmake : use.task? = some make)
    (hreaches :
      Reaches (session.context host) ((make program).machine session.heap) m) :
    (∀ world span id access calleeId name args env pending,
      m = ⟨world, .eval (.call span id (.var access calleeId name) args) env, pending⟩ →
      session.resolution.isNativeCall id = true →
      ∃ native, Native.named? name natives = some native ∧
        (args.length = native.arity → ∀ final,
          Delivers (session.context host) pending m final ↔
            Delivers ((session.context host).unmark id) pending m final) ∧
        (args.length ≠ native.arity → world.frames.depth ≤ settings.maxCallDepth →
          ∀ values world',
          (Arguments (session.context host) env
            ⟨world.heap, world.frames.push name, world.output⟩ args
              (.ok values) world' →
            Delivers (session.context host) pending m
              (faulted settings.faultPolicy ⟨world'.heap, world.frames, world'.output⟩
                pending span
                ⟨name, "expects " ++ toString native.arity ++ " argument(s), got " ++
                  toString args.length⟩)) ∧
          (Arguments ((session.context host).unmark id) env
              ⟨world.heap, world.frames.push name, world.output⟩ args
                (.ok values) world' →
            Delivers ((session.context host).unmark id) pending m
              ⟨⟨world'.heap, world.frames, world'.output⟩,
                .fail ⟨.arity name native.arity args.length, some span⟩, pending⟩))) ∧
    ∀ world name args pending, m = ⟨world, .native name args, pending⟩ →
      ∀ answers fault, Native.dispatch natives answers name args = .error fault →
        fault.message ≠ "no such native capability" := by
  obtain ⟨next, resolution, hread, -, hsession⟩ := prepare_eq_ok_iff.1 hprepare
  have hsuits := suits_of_prepare hprepare htargets host
  have hnatives : (session.context host).natives = natives := by rw [hsession]; rfl
  have hsettings : (session.context host).settings = settings := by rw [hsession]; rfl
  have hsteady : program.Steady natives m := by
    have hheap : session.heap = .start natives := by rw [hsession]; rfl
    rw [hheap] at hreaches
    exact (Program.steady_start hmake (Source.formed_of_read hread)).of_reaches
      hsuits hreaches
  refine ⟨?_, ?_⟩
  · rintro world span id access calleeId name args env pending rfl hmarked
    have hcall : .call span id (.var access calleeId name) args ∈ program.parts :=
      hsteady.supplies.control.self
    obtain ⟨native, hdirect⟩ := direct_of_prepare hprepare hcall hmarked
    have hname := Native.name_of_named? hdirect.named
    refine ⟨native, hdirect.named, fun harity final => ?_,
      fun harity hdepth values world' => ⟨?_, ?_⟩⟩
    · exact delivers_unmark_iff hsuits (Source.nodup_of_read hread) hcall hmarked
        hdirect harity hsteady (suffix_refl _)
    · intro hargs
      have hfault : ∀ answers, Native.dispatch (session.context host).natives answers
        name values =
          .error ⟨name, "expects " ++ toString native.arity ++ " argument(s), got " ++
            toString args.length⟩ := by
        intro answers
        rw [← hargs.length_eq] at harity ⊢
        simp only [hnatives, Native.dispatch, hdirect.named, if_neg harity, hname]
      rw [← hsettings] at hdepth ⊢
      refine .later (fun hend => by cases hend.1) ?_
      rw [step_marked hmarked]
      exact delivers_fault hdepth hargs hfault rfl
    · intro hargs
      rw [← hsettings] at hdepth
      refine .later (fun hend => by cases hend.1) ?_
      rw [step_unmarked ((session.context host).isNativeCall_unmark_self id)]
      exact delivers_arity (suits_unmark hsuits id) (hdirect.unmark id) hsteady harity
        hdepth hargs
  · rintro world name args pending rfl answers fault hfault
    have hcapability : (Native.named? name natives).isSome = true :=
      (Stock.covers_cons.1 hsteady.supplies.control).1
    obtain ⟨native, hnamed⟩ := Option.isSome_iff_exists.1 hcapability
    exact Native.message_ne_of_named? hnamed hfault

/-- A capability that is asked to open itself, and one that is given an argument too
many. -/
def ownName : String :=
  "fileOpen(fileOpen); clock(1);"

/-- The tree of the text. -/
def ownNameProgram : Program :=
  ⟨[.expression ⟨0, 19⟩
    (.call ⟨0, 18⟩ 2 (.var ⟨0, 8⟩ 0 "fileOpen") [.var ⟨9, 17⟩ 1 "fileOpen"]),
    .expression ⟨20, 29⟩
    (.call ⟨20, 28⟩ 4 (.var ⟨20, 25⟩ 3 "clock") [.literal ⟨26, 27⟩ (.number 1)])]⟩

/-- The session that has taken it in. -/
def ownNameSession : Session :=
  { start ⟨.function, .value, 8⟩ Native.all with
    nextId := 5
    resolution := Resolution.empty.merge (.ofNotes [.nativeCall 2, .nativeCall 4]) }

private theorem prepare_ownName :
    (start ⟨.function, .value, 8⟩ Native.all).prepare ownName =
      (ownNameSession, .ok ownNameProgram) := by
  have htokens : (tokenize ownName).toOption =
    some [⟨.ident "fileOpen", ⟨0, 8⟩⟩, ⟨.sign .lparen, ⟨8, 9⟩⟩,
      ⟨.ident "fileOpen", ⟨9, 17⟩⟩, ⟨.sign .rparen, ⟨17, 18⟩⟩, ⟨.sign .semi, ⟨18, 19⟩⟩,
      ⟨.ident "clock", ⟨20, 25⟩⟩, ⟨.sign .lparen, ⟨25, 26⟩⟩, ⟨.number 1, ⟨26, 27⟩⟩,
      ⟨.sign .rparen, ⟨27, 28⟩⟩, ⟨.sign .semi, ⟨28, 29⟩⟩] := by
    decide +kernel
  refine prepare_eq_ok_iff.2 ⟨5, .ofNotes [.nativeCall 2, .nativeCall 4], ?_, rfl, rfl⟩
  cases hscan : tokenize ownName with
  | error e =>
    rw [hscan] at htokens
    cases htokens
  | ok tokens =>
    rw [hscan] at htokens
    cases htokens
    exact Source.read_eq_ok_iff.2 ⟨_, hscan, rfl⟩

/-- The world in which the second call is made. -/
def ownNameWorld : World :=
  ⟨(Heap.start Native.all).draw.2, Frames.empty.push globalFrame, ""⟩

/-- The states in which the two calls are made: the first one can do without its mark,
though its argument is spelled like what it calls; the second one faults with its mark
and fails without it. -/
theorem marked_calls_agree_ownName :
    let ctx := ownNameSession.context idleHost
    let first := ((Task.run ownNameProgram).machine ownNameSession.heap).run ctx 2
    let second := ((Task.run ownNameProgram).machine ownNameSession.heap).run ctx 10
    (start ⟨.function, .value, 8⟩ Native.all).prepare ownName =
      (ownNameSession, .ok ownNameProgram) ∧ ownNameProgram.targets = [] ∧
      (∀ final, Delivers ctx first.pending first final ↔
        Delivers (ctx.unmark 2) first.pending first final) ∧
      Delivers ctx second.pending second
        (faulted .value ownNameWorld second.pending ⟨20, 28⟩
          ⟨"clock", "expects 0 argument(s), got 1"⟩) ∧
      Delivers (ctx.unmark 4) second.pending second
        ⟨ownNameWorld, .fail ⟨.arity "clock" 0 1, some ⟨20, 28⟩⟩, second.pending⟩ := by
  intro ctx first second
  have hargs : ∀ ctx, Arguments ctx globalScope
    ⟨ownNameWorld.heap, ownNameWorld.frames.push "clock", ""⟩
      [.literal ⟨26, 27⟩ (.number 1)] (.ok [.number 1])
      ⟨ownNameWorld.heap, ownNameWorld.frames.push "clock", ""⟩ := fun ctx =>
    .next (.later (fun hend => by cases hend.1) (.here rfl rfl)) (.done _)
  obtain ⟨hfirst, -⟩ :=
    marked_calls_agree prepare_ownName (fun _ hname => absurd hname not_mem_nil)
    (rfl : Use.run.task? = some .run) (.run ctx 2 _)
  obtain ⟨hsecond, -⟩ :=
    marked_calls_agree prepare_ownName (fun _ hname => absurd hname not_mem_nil)
    (rfl : Use.run.task? = some .run) (.run ctx 10 _)
  obtain ⟨_, hopen, hagree, -⟩ := hfirst _ _ _ _ _ _ _ _ _ rfl (by decide)
  cases hopen
  obtain ⟨_, hclock, -, hdiffer⟩ := hsecond _ _ _ _ _ _ _ _ _ rfl (by decide)
  cases hclock
  obtain ⟨hfault, harity⟩ := hdiffer (by decide) (by decide) [.number 1] _
  exact ⟨prepare_ownName, rfl, hagree rfl, hfault (hargs ctx), harity (hargs _)⟩

end Session

end Treewalk
