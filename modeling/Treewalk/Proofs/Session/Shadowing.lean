import Treewalk.Proofs.Machine.Underway
import Treewalk.Proofs.Scope.Marks

/-!
# Declarations that reuse the name of a capability

A name that a text has declared at its top level stays bound for all later texts.
Whether it counts as declared is told by the value that it has: as long as that is no
capability, the name is listed among the globals, and no call of the name is marked, so
calls go to the value of the name. A name that holds a capability, be it declared or
not, counts as that of a capability again, and calls of it go to the capability of the
name, which may be another one than the name holds.

* `Machine.has_of_declares?`: a declaration binds its name.
* `Heap.mem_globalNames_iff`: the names that are listed.
* `Session.declared_name_shadows`: what a declaration means for all later texts.
-/

namespace Treewalk

open List

variable {name : String} {env : ScopeId} {m : Machine} {pending : List Pending}
  {calleeId : NodeId} {natives : List Native}

/-! ## Names that are listed -/

/-- Whether the value is a capability. -/
def Value.isNative : Value → Bool
  | .callable (.native _) => true
  | _ => false

private theorem Table.get?_of_mem {α : Type} {value : α} {table : Table α}
    (hnodup : (names table).Nodup) (hmem : (name, value) ∈ table) :
    table.get? name = some value := by
  induction table with
  | nil => cases hmem
  | cons entry rest ih =>
    obtain ⟨key, old⟩ := entry
    obtain ⟨hfirst, hrest⟩ := nodup_cons.1 hnodup
    rw [get?]
    rcases mem_cons.1 hmem with heq | hmem
    · cases heq
      exact if_pos rfl
    · have hkey : key ≠ name := by
        rintro rfl
        exact hfirst (mem_map.2 ⟨(key, value), hmem, rfl⟩)
      rw [if_neg hkey]
      exact ih hrest hmem

/-- A bound name is listed if its value is no capability. -/
theorem Heap.mem_globalNames_iff {heap : Heap}
    (hnodup : (Table.names (heap.bindings globalScope)).Nodup) {value : Value}
    (hvalue : (heap.bindings globalScope).get? name = some value) :
    name ∈ heap.globalNames ↔ value.isNative = false := by
  constructor
  · intro hmem
    obtain ⟨⟨key, found⟩, hentry, hname⟩ := mem_filterMap.1 hmem
    have hfound := Table.get?_of_mem hnodup hentry
    split at hname
    · cases hname
    · rename_i hnative heq
      cases heq
      cases hname
      rw [hvalue] at hfound
      cases hfound
      unfold Value.isNative
      split
      · rename_i native
        exact absurd rfl (hnative native)
      · rfl
  · intro hnative
    refine mem_filterMap.2 ⟨(name, value), Table.mem_of_get? hvalue, ?_⟩
    split
    · rename_i heq
      cases heq
      cases hnative
    · rename_i heq
      cases heq
      rfl

/-! ## Names that are bound -/

private theorem Heap.has_define {heap : Heap} (henv : env < heap.scopes.size)
    (name : String) (value : Value) :
    ((heap.define env name value).bindings env).has name = true := by
  rw [bindings_define_self henv, Table.has, Table.get?_put_self]
  rfl

namespace Machine

private theorem has_declareClass {world : World} {decl : ClassDecl}
    (henv : env < world.heap.scopes.size) (superclass : Option Class) :
    ((declareClass world pending env decl superclass).world.heap.bindings env).has
      decl.name.node = true := by
  have hcleared : world.heap.Edits (fun _ _ => True)
      (world.heap.define env decl.name.node .nothing) :=
    .define .none trivial _
  cases superclass with
  | none =>
    have hmade := hcleared.makeClass decl.name.node none decl.methods env
    exact Heap.has_define (Nat.lt_of_lt_of_le henv hmade.size_le) _ _
  | some superclass =>
    have hmade :=
      (hcleared.makeChild env [("super", .cls superclass)]).makeClass decl.name.node
      (some superclass) decl.methods
      (world.heap.define env decl.name.node .nothing).scopes.size
    exact Heap.has_define (Nat.lt_of_lt_of_le henv hmade.size_le) _ _

/-- A declaration binds its name. -/
theorem has_of_declares? (ctx : Context) (h : m.declares? = some (env, name))
    (henv : env < m.world.heap.scopes.size) :
    ((step ctx m).world.heap.bindings env).has name = true := by
  obtain ⟨world, control, pending⟩ := m
  cases control with
  | exec stmt env' =>
    obtain ⟨bound, hbound, heq⟩ := Option.map_eq_some_iff.1 h
    cases heq
    cases stmt with
    | var span name' init =>
      cases init with
      | none =>
        cases hbound
        exact Heap.has_define henv _ _
      | some init => cases hbound
    | funcDecl span decl =>
      cases hbound
      exact Heap.has_define henv _ _
    | classDecl span decl =>
      simp only [Stmt.bound?] at hbound
      simp only [step, execute]
      cases hsuper : decl.superclass with
      | none =>
        rw [hsuper] at hbound
        cases hbound
        exact has_declareClass henv none
      | some superclass =>
        rw [hsuper] at hbound
        cases hbound
    | _ => cases hbound
  | value value =>
    cases pending with
    | nil => cases h
    | cons entry pending =>
      cases entry with
      | declare name' env' =>
        cases h
        exact Heap.has_define henv _ _
      | superclass span decl env' =>
        simp only [declares?, Pending.declares?] at h
        split at h
        · rename_i hkind
          cases h
          cases value with
          | cls superclass => exact has_declareClass henv (some superclass)
          | _ => cases hkind
        · cases h
      | _ => cases h
  | _ => cases h

private theorem isFinal_of_declares? (h : m.declares? = some (env, name)) :
    m.isFinal = false := by
  obtain ⟨world, control, pending⟩ := m
  cases control with
  | exec stmt env => rfl
  | value value =>
    cases pending with
    | nil => cases h
    | cons entry pending => rfl
  | _ => cases h

namespace Reaches

variable {ctx : Context} {start m : Machine}

private theorem has_bindings (h : Reaches ctx start m) {env : ScopeId} {name : String}
    (hbound : (start.world.heap.bindings env).has name = true) :
    (m.world.heap.bindings env).has name = true := by
  induction h with
  | start => exact hbound
  | step _ ih => exact (step_edits ctx _).has_bindings ih

private theorem of_running {limit : Nat} (h : Reaches ctx start m)
    (hrunning : m.isFinal = false) (hend : (start.run ctx limit).isFinal = true) :
    Reaches ctx (m.step ctx) (start.run ctx limit) := by
  obtain ⟨count, rfl⟩ := h.exists_run
  have hlt : count < limit := by
    refine Nat.not_le.1 fun hle => ?_
    rw [run_eq_of_le hle hend, hend] at hrunning
    cases hrunning
  obtain ⟨more, rfl⟩ : ∃ more, limit = count + (more + 1) :=
    ⟨limit - count - 1, by omega⟩
  rw [run_add, Machine.run, if_neg (by rw [hrunning]; exact Bool.false_ne_true)]
  exact .run ctx more _

end Reaches

/-- A call that is not marked, of a name that no scope around it declares, goes to the
argument of that name, if there is one, and else to the value that the name has when the
arguments are known. -/
private theorem delivers_global_call {ctx : Context} {world world' : World}
    {span access : Span} {id : NodeId} {args : List Expr} {values : List Value}
    {callee : Value} {final : Machine} (hdiscipline : ctx.discipline = .frames)
    (hunmarked : ctx.resolution.isNativeCall id = false)
    (hdistance : ctx.resolution.distance? calleeId = none)
    (hdepth : world.frames.depth ≤ ctx.settings.maxCallDepth)
    (hargs : Arguments ctx env ⟨world.heap, world.frames.push name, world.output⟩ args
      (.ok values) world')
    (hcallee : ((Table.putAll [] (namedArguments (args.zip values))).get? name).or
      ((world'.heap.bindings globalScope).get? name) = some callee) :
    Delivers ctx pending ⟨world, .eval (.call span id (.var access calleeId name) args)
      env, pending⟩ final ↔ Delivers ctx pending
        (invoke ⟨world'.heap, world'.frames.addAll (namedArguments (args.zip values)),
          world'.output⟩ (.leave (some span) :: pending) name callee values) final := by
  have hread :
    ctx.read ⟨world'.heap, world'.frames.addAll (namedArguments (args.zip values)),
      world'.output⟩ name calleeId env = .ok callee := by
    simp only [Context.read, Context.frameValue?, hdiscipline, hdistance,
      World.readGlobal, Frames.get?_addAll_of_topNames hargs.topNames_eq]
    rcases Option.or_eq_some_iff.1 hcallee with hcopy | ⟨hnone, hglobal⟩
    · rw [hcopy]
    · rw [hnone, hglobal]
  have hvalues : (args.zip values).map (·.2) = values :=
    map_snd_zip (Nat.le_of_eq hargs.length_eq)
  have hstart : Delivers ctx pending
      ⟨world, .eval (.call span id (.var access calleeId name) args) env,
        pending⟩ final ↔
      Delivers ctx pending
        (startCall ctx world pending ⟨span, name, .named access calleeId, env⟩ args)
        final := by
    rw [← step_unmarked hunmarked]
    refine ⟨fun h => ?_, .later fun hend => by cases hend.1⟩
    cases h with
    | here outcome _ => cases outcome
    | later _ run => exact run
  rw [hstart, delivers_startCall_iff_of_arguments hdepth hargs]
  simp only [complete, hread, hvalues]

end Machine

/-! ## Sessions -/

/-- No name is bound twice in the global scope. -/
structure Heap.Tidy (heap : Heap) : Prop where
  global : globalScope < heap.scopes.size
  nodup : (Table.names (heap.bindings globalScope)).Nodup

private theorem Heap.Tidy.of_reaches {ctx : Context} {start : Machine}
    (h : start.world.heap.Tidy) (hreaches : Machine.Reaches ctx start m) :
    m.world.heap.Tidy := by
  induction hreaches with
  | start => exact h
  | @step m _ ih =>
    have hedits := Machine.step_edits ctx m
    exact ⟨Nat.lt_of_lt_of_le ih.global hedits.size_le,
      hedits.nodup_names ih.global ih.nodup⟩

theorem Heap.tidy_start (h : (natives.map Native.name).Nodup) :
    (Heap.start natives).Tidy where
  global := by simp [Heap.start, Heap.makeScope, Heap.empty, globalScope]
  nodup := by
    simpa [Heap.start, Heap.makeScope, Heap.empty, Heap.bindings, globalScope,
      Table.names, Function.comp_def] using h

private theorem Native.nodup_of_enable {names : List String}
    (h : Native.enable names = .ok natives) :
    (natives.map Native.name).Nodup := by
  unfold Native.enable at h
  split at h
  · cases h
  · cases h
    exact (filter_sublist.map _).nodup (by decide)

namespace Session

open Machine

variable {limit : Nat} {session session' prepared : Session} {turn : Turn}
  {answer : Answer} {program : Program} {make : Program → Task}

/-- A turn that runs something leaves the heap at the end of its run. -/
theorem run_of_take (hprepare : session.prepare turn.source = (prepared, .ok program))
    (hmake : turn.use.task? = some make)
    (htake : session.take limit turn = some (session', answer)) :
    (((make program).machine prepared.heap).run (prepared.context turn.host)
      limit).isFinal = true ∧ session'.heap =
        (((make program).machine prepared.heap).run (prepared.context turn.host)
          limit).world.heap := by
  obtain ⟨-, -, htaken⟩ := taken_of_take htake
  generalize answer.result = result at htaken
  cases htaken with
  | refused hprepare' => cases hprepare.symm.trans hprepare'
  | read _ hidle => cases hmake.symm.trans hidle
  | ran hprepare' hasks hruns hends =>
    cases hprepare.symm.trans hprepare'
    cases hmake.symm.trans hasks
    rw [hruns, Machine.isFinal, hends]
    exact ⟨rfl, rfl⟩

/-- The turn carries out a declaration of the name at the top level. -/
def Declares (session : Session) (turn : Turn) (name : String) : Prop :=
  ∃ prepared program make m, session.prepare turn.source = (prepared, .ok program) ∧
    turn.use.task? = some make ∧
    Reaches (prepared.context turn.host) ((make program).machine prepared.heap) m ∧
    m.declares? = some (globalScope, name)

private theorem has_of_declares (h : session.Declares turn name)
    (hsession : session.heap.Tidy)
    (htake : session.take limit turn = some (session', answer)) :
    (session'.heap.bindings globalScope).has name = true := by
  obtain ⟨prepared, program, make, m, hprepare, hmake, hreaches, hdeclares⟩ := h
  obtain ⟨hend, hheap⟩ := run_of_take hprepare hmake htake
  have htidy : ((make program).machine prepared.heap).world.heap.Tidy := by
    obtain ⟨_, _, -, -, rfl⟩ := prepare_eq_ok_iff.1 hprepare
    rw [Task.world_machine]
    exact hsession
  have hbound := has_of_declares? (prepared.context turn.host) hdeclares
    (htidy.of_reaches hreaches).global
  rw [hheap]
  exact (hreaches.of_running (isFinal_of_declares? hdeclares) hend).has_bindings hbound

/-- Once a turn has declared a name at the top level, the name is bound after every
later turn. It is listed among the globals if and only if its value is no capability. In
the next text a call of the name is marked only if there is a capability of that name,
the value is a capability, and neither the top level of the text nor a scope around the
call declares the name. A call that is not marked, and that no scope around it hides the
name from, goes to the value that the name has by then, or to the argument of the call
that is spelled like it. -/
theorem declared_name_shadows {settings : Settings} {fresh later : Session}
    {turns rest : List Turn} {answers answers' : List Answer} {name : String}
    (hfresh : ofSettings settings = .ok fresh)
    (hbefore : fresh.play limit turns = some (session, answers))
    (hdeclares : session.Declares turn name)
    (hturn : session.take limit turn = some (session', answer))
    (hafter : session'.play limit rest = some (later, answers')) :
    ∃ value, (later.heap.bindings globalScope).get? name = some value ∧
      (name ∈ later.globalNames ↔ value.isNative = false) ∧
      ∀ source prepared program, later.prepare source = (prepared, .ok program) →
        ∀ span id access calleeId args,
          .call span id (.var access calleeId name) args ∈ program.parts →
          (prepared.resolution.isNativeCall id = true ↔
            (Native.named? name later.natives).isSome = true ∧ value.isNative = true ∧
              ¬program.Declares name ∧ prepared.resolution.distance? calleeId = none) ∧
          (prepared.resolution.isNativeCall id = false →
            prepared.resolution.distance? calleeId = none →
            ∀ host task world env pending,
              Reaches (prepared.context host) (Task.machine prepared.heap task)
                ⟨world, .eval (.call span id (.var access calleeId name) args) env,
                  pending⟩ →
              world.frames.depth ≤ prepared.settings.maxCallDepth →
              ∀ values world', Arguments (prepared.context host) env
                  ⟨world.heap, world.frames.push name, world.output⟩ args (.ok values)
                  world' →
                ∃ callee,
                  ((Table.putAll [] (namedArguments (args.zip values))).get? name).or
                    ((world'.heap.bindings globalScope).get? name) = some callee ∧
                  ∀ final, Delivers (prepared.context host) pending
                      ⟨world, .eval (.call span id (.var access calleeId name) args)
                        env, pending⟩ final ↔
                    Delivers (prepared.context host) pending
                      (invoke
                        ⟨world'.heap,
                          world'.frames.addAll (namedArguments (args.zip values)),
                          world'.output⟩
                        (.leave (some span) :: pending) name callee values)
                      final) := by
  have hruns : ∀ ctx task heap m, heap.Tidy → Reaches ctx (Task.machine heap task) m →
      m.world.heap.Tidy := by
    intro ctx task heap m hheap hreaches
    refine Heap.Tidy.of_reaches ?_ hreaches
    rw [Task.world_machine]
    exact hheap
  have hkeeps : ∀ ctx task heap m, (Heap.bindings heap globalScope).has name = true →
      Reaches ctx (Task.machine heap task) m →
        (m.world.heap.bindings globalScope).has name = true := by
    intro ctx task heap m hheap hreaches
    refine hreaches.has_bindings ?_
    rw [Task.world_machine]
    exact hheap
  obtain ⟨natives, henable, rfl⟩ : ∃ natives, Native.enable settings.natives =
    .ok natives ∧
      fresh = start settings.run natives := by
    unfold ofSettings at hfresh
    split at hfresh
    · cases hfresh
    · rename_i natives henable
      exact ⟨natives, henable, (Except.ok.inj hfresh).symm⟩
  have hsession : session.heap.Tidy :=
    heap_play hruns turns hbefore (Heap.tidy_start (Native.nodup_of_enable henable))
  have hlater : later.heap.Tidy :=
    heap_play hruns rest hafter (heap_take hruns hturn hsession)
  have hbound : (later.heap.bindings globalScope).has name = true :=
    heap_play hkeeps rest hafter (has_of_declares hdeclares hsession hturn)
  have hbounded : later.Bounded := by
    have hdrawn := Drawn.of_play (bounded_start settings.run natives) hbefore
    exact (Drawn.of_play (Drawn.of_take hdrawn.bounded hturn).bounded hafter).bounded
  obtain ⟨value, hvalue⟩ := Option.isSome_iff_exists.1 hbound
  refine ⟨value, hvalue, Heap.mem_globalNames_iff hlater.nodup hvalue, ?_⟩
  intro source prepared program hprepare span id access calleeId args hcall
  have hlisted : name ∉ later.globalNames ↔ value.isNative = true := by
    rw [globalNames, Heap.mem_globalNames_iff hlater.nodup hvalue, Bool.not_eq_false]
  refine ⟨?_, ?_⟩
  · rw [isNativeCall_prepare_iff hbounded hprepare hcall, hlisted]
    exact and_congr_right fun _ => and_left_comm
  intro hunmarked hdistance host task world env pending hreaches hdepth values
    world' hargs
  have hworld : (world.heap.bindings globalScope).has name = true := by
    obtain ⟨_, _, -, -, rfl⟩ := prepare_eq_ok_iff.1 hprepare
    exact hkeeps _ task _ _ hbound hreaches
  -- The arguments do not unbind the name either.
  obtain ⟨hworld', -⟩ :=
    hargs.keeps (P := fun world => (world.heap.bindings globalScope).has name = true)
    (Q := fun _ _ => True) (fun _ _ _ _ hheap first => first.reaches.has_bindings hheap)
    (fun _ _ _ _ _ _ _ => trivial) hworld
  obtain ⟨current, hcurrent⟩ := Option.isSome_iff_exists.1 hworld'
  obtain ⟨callee, hcallee⟩ : ∃ callee,
      ((Table.putAll [] (namedArguments (args.zip values))).get? name).or
        ((world'.heap.bindings globalScope).get? name) = some callee := by
    rw [hcurrent]
    exact Option.isSome_iff_exists.1 (by simp)
  exact ⟨callee, hcallee, fun final => delivers_global_call rfl hunmarked hdistance
    hdepth hargs hcallee⟩

/-- A declaration that a run comes to is carried out. -/
theorem declares_of_run (steps : Nat) (hmake : turn.use.task? = some make)
    (h : ((session.prepare turn.source).2.toOption.bind fun program =>
      (((make program).machine (session.prepare turn.source).1.heap).run
        ((session.prepare turn.source).1.context turn.host) steps).declares?) =
        some (globalScope, name)) :
    session.Declares turn name := by
  generalize hprepare : session.prepare turn.source = found at h
  obtain ⟨prepared, _ | program⟩ := found
  · cases h
  · exact ⟨prepared, program, make, _, hprepare, hmake, .run _ steps _, h⟩

/-- The number of a call by name, that of the name, and the name. -/
def calledName? : Expr → Option (NodeId × NodeId × String)
  | .call _ id (.var _ calleeId name) _ => some (id, calleeId, name)
  | _ => none

private theorem exists_call_of_mem {id : NodeId}
    (h : (id, calleeId, name) ∈ program.parts.filterMap calledName?) :
    ∃ span access args, .call span id (.var access calleeId name) args ∈
      program.parts := by
  obtain ⟨expr, hexpr, hcalled⟩ := mem_filterMap.1 h
  unfold calledName? at hcalled
  split at hcalled
  · cases hcalled
    exact ⟨_, _, _, hexpr⟩
  · cases hcalled

/-- A function with the name of a capability. -/
def ownClock : Turn :=
  ⟨.line, "func clock(a) = { return a; }", idleHost⟩

/-- The function is listed after a further text, and a call of it is not marked. -/
theorem declared_name_shadows_ownClock :
    ∃ session answer later answers prepared program span access args,
      ofSettings .default = .ok (start Settings.default.run Native.all) ∧
      (start Settings.default.run Native.all).Declares ownClock "clock" ∧
      (start Settings.default.run Native.all).take 40 ownClock =
        some (session, answer) ∧
      session.play 40 [⟨.run, "var b = clock(3);", idleHost⟩] = some (later, answers) ∧
      "clock" ∈ later.globalNames ∧
      later.prepare "clock(clock);" = (prepared, .ok program) ∧
      .call span 5 (.var access 3 "clock") args ∈ program.parts ∧
      prepared.resolution.isNativeCall 5 = false := by
  have hdeclares : (start Settings.default.run Native.all).Declares ownClock "clock" :=
    declares_of_run 1 rfl (by decide +kernel)
  have hplayed : ((start Settings.default.run Native.all).take 40 ownClock).bind
    (fun taken =>
      (taken.1.play 40 [⟨.run, "var b = clock(3);", idleHost⟩]).map fun played =>
        (((played.1.heap.bindings globalScope).get? "clock").map Value.isNative,
          (played.1.prepare "clock(clock);").2.toOption.map fun program =>
            program.parts.filterMap calledName?)) =
              some (some false, some [(5, 3, "clock")]) := by
    decide +kernel
  obtain ⟨⟨session, answer⟩, htake, hrest⟩ := Option.bind_eq_some_iff.1 hplayed
  obtain ⟨⟨later, answers⟩, hplay, hfacts⟩ := Option.map_eq_some_iff.1 hrest
  obtain ⟨hnative, hprogram⟩ := Prod.mk.inj hfacts
  generalize hprepare : later.prepare "clock(clock);" = found at hprogram
  obtain ⟨prepared, _ | program⟩ := found
  · cases hprogram
  have hcalled := Option.some.inj hprogram
  obtain ⟨span, access, args, hcall⟩ := exists_call_of_mem (hcalled ▸ mem_cons_self)
  obtain ⟨value, hvalue, hlisted, hnext⟩ :=
    declared_name_shadows
      (rfl : ofSettings .default = .ok (start Settings.default.run Native.all))
      (rfl : play 40 _ [] = _) hdeclares htake hplay
  rw [hvalue, Option.map_some, Option.some.injEq] at hnative
  refine ⟨session, answer, later, answers, prepared, program, span, access, args, rfl,
    hdeclares, htake, hplay, hlisted.2 hnative, hprepare, hcall, ?_⟩
  refine Bool.eq_false_iff.2 fun hmarked => ?_
  have hmarked' := ((hnext _ _ _ hprepare _ _ _ _ _ hcall).1.1 hmarked).2.1
  rw [hnative] at hmarked'
  cases hmarked'

/-- A variable with the name of one capability that holds another one, and a call of
it. -/
def renamedClock : List Turn :=
  [⟨.line, "var clock = fileOpen;", idleHost⟩, ⟨.line, "clock(1);", idleHost⟩]

/-- The variable is declared, but it is not listed, and the call goes to the capability
of its name. -/
theorem declared_capability_not_listed :
    ofSettings .default = .ok (start Settings.default.run Native.all) ∧
      (start Settings.default.run Native.all).Declares
        ⟨.line, "var clock = fileOpen;", idleHost⟩ "clock" ∧
      ∃ session answers, (start Settings.default.run Native.all).play 40 renamedClock =
          some (session, answers) ∧
        ((session.heap.bindings globalScope).get? "clock").map Value.text =
          some "<fn fileOpen>" ∧
        answers.map Answer.globals = [[], []] ∧
        answers.map (fun answer => answer.result.toOption.map (Option.map Value.text)) =
          [some none, some (some "<fault clock: expects 0 argument(s), got 1>")] := by
  have hplayed : ((start Settings.default.run Native.all).play 40 renamedClock).map
    (fun played =>
      (((played.1.heap.bindings globalScope).get? "clock").map Value.text,
        played.2.map Answer.globals,
        played.2.map fun answer =>
          answer.result.toOption.map (Option.map Value.text))) =
      some (some "<fn fileOpen>", [[], []],
        [some none, some (some "<fault clock: expects 0 argument(s), got 1>")]) := by
    decide +kernel
  obtain ⟨⟨session, answers⟩, hplay, hfacts⟩ := Option.map_eq_some_iff.1 hplayed
  obtain ⟨hvalue, hanswers⟩ := Prod.mk.inj hfacts
  obtain ⟨hglobals, hresults⟩ := Prod.mk.inj hanswers
  exact ⟨rfl, declares_of_run 3 rfl (by decide +kernel), session, answers, hplay,
    hvalue, hglobals, hresults⟩

end Session

end Treewalk
