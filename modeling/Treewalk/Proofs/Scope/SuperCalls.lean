import Treewalk.Proofs.Scope.LayoutRun

/-!
# `super` is static, `this` is dynamic

Neither word is resolved before the run: both are looked for along the scopes. The scope
that the methods of a subclass see binds `super` to the superclass, once and for all
when the class is declared, and inside it each method that is taken of an instance gets
a scope that binds `this`. So `super` means what it meant where the class was declared,
whatever the class of the receiver, and `this` is the receiver of the method around,
from blocks and functions in the method too.
-/

namespace Treewalk

variable {m : Machine} {resume : Context → World → Value → Machine} {start : Machine}
  {function : Function}

namespace Machine

variable {ctx : Context}

/-- The state is about to find the method that `super` means, alone or to call it, and
this is what it then does with the bound method. -/
inductive AsksSuper : Machine → Span → Name → ScopeId →
    (Context → World → Value → Machine) → Prop
  | value {world : World} {span : Span} {name : Name} {env : ScopeId}
      {pending : List Pending} :
      AsksSuper ⟨world, .eval (.super span name) env, pending⟩ span name env
        fun _ world bound => ⟨world, .value bound, pending⟩
  | call {world : World} {span access : Span} {id : NodeId} {name : Name}
      {args : List Expr} {env : ScopeId} {pending : List Pending} :
      AsksSuper ⟨world, .eval (.call span id (.super access name) args) env, pending⟩
        access name env fun ctx world bound =>
        startCall ctx world pending ⟨span, name.node, .found bound, env⟩ args

private theorem AsksSuper.step_eq {span : Span} {name : Name} {env : ScopeId}
    (h : m.AsksSuper span name env resume) (ctx : Context) : m.step ctx =
      match m.world.superMethod name.node env with
      | .error cause => failAt m.world m.pending cause (some span)
      | .ok (method, receiver) =>
        resume ctx (m.world.bind method receiver).2
          (m.world.bind method receiver).1 := by
  cases h with
  | value => rfl
  | call => rfl

/-- The state has the value of the superclass expression of a class, and makes the scope
that the methods see. -/
structure MakesSubclass (m : Machine) (decl : ClassDecl) (superclass : Class)
    (scope : ScopeId) : Prop where
  control : m.control = .value (.cls superclass)
  pending : ∃ span env rest, m.pending = .superclass span decl env :: rest
  scope : m.world.heap.scopes.size = scope

private theorem Traced.reaches {origins : List Origin}
    (h : Traced ctx start m origins) : Reaches ctx start m := by
  induction h with
  | start => exact .start
  | step _ ih => exact .step ih

private theorem Reaches.exists_traced (h : Reaches ctx start m) :
    ∃ origins, Traced ctx start m origins := by
  induction h with
  | start => exact ⟨_, .start⟩
  | step _ ih =>
    obtain ⟨origins, htraced⟩ := ih
    exact ⟨_, htraced.step⟩

private theorem Reaches.next {ctx : Context} {m : Machine} (h : Reaches ctx start m) :
    m = start ∨ Reaches ctx (start.step ctx) m := by
  induction h with
  | start => exact .inl rfl
  | step _ ih =>
    rcases ih with rfl | ih
    · exact .inr .start
    · exact .inr (.step ih)

/-- Of two states of a run one comes before the other. -/
theorem Reaches.total {m' : Machine} (h : Reaches ctx start m)
    (h' : Reaches ctx start m') :
    Reaches ctx m m' ∨ Reaches ctx (m'.step ctx) m := by
  induction h with
  | start => exact .inl h'
  | step _ ih =>
    rcases ih with hbefore | hafter
    · rcases hbefore.next with rfl | hbefore
      · exact .inr .start
      · exact .inl hbefore
    · exact .inr (.step hafter)

end Machine

/-- A run from a state, where it is remembered which superclass expression had which
value. -/
def Program.superLayout (program : Program) (ctx : Context) (start : Machine) :
    Layout where
  spot spot := spot ∈ program.spots
  sheltered := ∀ span name around, ⟨.expr (.super span name), around⟩ ∈ program.spots →
    (Origin.subclassMethod? around).isSome = true
  declared decl superclass scope := ∃ earlier, Machine.Reaches ctx start earlier ∧
    earlier.MakesSubclass decl superclass scope

namespace Layout

open Machine

variable {layout : Layout} {origins : List Origin} {m : Machine}

private theorem Governs.hasExpr_super (h : layout.Governs origins m) {span : Span}
    {name : Name} {env : ScopeId} (hasks : m.AsksSuper span name env resume) :
    layout.HasExpr ⟨m.world.heap, origins⟩ env (.super span name) := by
  cases hasks with
  | value => exact h.control
  | call => exact HasExpr.part h.control (by simp [Expr.parts])

/-- A method that is bound to a receiver is held by a class that the receiver inherits
from. -/
private theorem Keeps.holder_of_this {world : World} (h : layout.Keeps origins world)
    (hsheltered : layout.sheltered)
    (hfunction : layout.HasValue ⟨world.heap, origins⟩ (.callable (.function function)))
    {receiver : Value}
    (hthis : (world.heap.bindings function.closure).get? "this" = some receiver) :
    ∃ inst, receiver = .inst inst ∧
      Holder ⟨world.heap, origins⟩ inst.cls.lineage function.decl function.closure := by
  obtain ⟨around, hfrom⟩ := hfunction
  have hsound := h.scopes function.closure _ hfrom.sees.origin_eq
  rcases hfrom.bound with hreceiver | ⟨-, hbodied⟩
  · obtain ⟨outside, rfl⟩ := List.head?_eq_some_iff.1 hreceiver
    obtain ⟨inst, hbound, -, hholder⟩ := hsound
    exact ⟨inst, Option.some.inj (hthis.symm.trans hbound), hholder hsheltered⟩
  · -- a function that is no method sees the scope of a body, or the globals
    cases around with
    | nil => cases hthis.symm.trans hsound.1
    | cons origin around =>
      cases hthis.symm.trans (hsound.get?_eq_none (hbodied origin rfl) (.inl rfl))

end Layout

namespace Machine

open Layout

/-- In every run of a program that was read: where `super` is asked for in a method of a
class that has a superclass, also from blocks and functions in the method, the method is
looked for from the class that the superclass expression gave when this class was
declared, and it is for the receiver of the method around. If every `super` of the
program stands so, then every method that is bound to a receiver at any time is held by
the class of this receiver or by one that this inherits from. -/
theorem super_static_this_dynamic {n next : NodeId} {source : String}
    {program : Program} (hread : Source.read n source = (.ok program, next)) {use : Use}
    {make : Program → Task} (hmake : use.task? = some make) {natives : List Native}
    {ctx : Context} {m : Machine} {origins : List Origin}
    (htraced : Traced ctx ((make program).machine (.start natives)) m origins) :
    (∀ span name env resume, m.AsksSuper span name env resume →
      ∃ around, ⟨.expr (.super span name), around⟩ ∈ program.spots ∧
        Around ⟨m.world.heap, origins⟩ env around ∧
        ∀ method decl, Origin.subclassMethod? around = some (method, decl) →
          ∃ receiver closure inst superclass earlier,
            MethodView ⟨m.world.heap, origins⟩ env method decl receiver closure inst
              superclass ∧
            Reaches ctx ((make program).machine (.start natives)) earlier ∧
            earlier.MakesSubclass decl superclass closure ∧
            Reaches ctx (earlier.step ctx) m ∧
            m.step ctx =
              match superclass.findMethod? name.node with
              | some found =>
                resume ctx (m.world.bind found (.inst inst)).2
                  (m.world.bind found (.inst inst)).1
              | none =>
                failAt m.world m.pending (.undefinedProperty name.node [])
                  (some span)) ∧
    ((∀ span name around, ⟨.expr (.super span name), around⟩ ∈ program.spots →
        (Origin.subclassMethod? around).isSome = true) →
      ∀ function receiver, .value (.callable (.function function)) ∈ m.contents →
        (m.world.heap.bindings function.closure).get? "this" = some receiver →
        ∃ inst, receiver = .inst inst ∧
          ∃ cls ∈ inst.cls.lineage, ∃ name method, cls.methods.get? name = some method ∧
            method.decl = function.decl ∧
            ∃ outer, m.world.heap.chain function.closure =
              function.closure :: method.closure :: outer) := by
  let layout := program.superLayout ctx ((make program).machine (.start natives))
  have hproper : layout.Proper :=
    ⟨fun _ hspot _ hname => Source.not_reserved_of_read hread hspot hname, fun _ =>
      Program.paired_of_mem_spots, fun hsheltered => hsheltered⟩
  -- every class that gets a superclass along the run is remembered with the state in
  -- which it gets it
  have hgoverns : layout.Governs origins m := by
    refine governs_of_traced hproper
      (governs_machine (keeps_start natives) (fun _ hspot => hspot) hmake) ?_ htraced
    intro m origins htraced span decl env rest superclass hcontrol hpending
    exact ⟨m, htraced.reaches, hcontrol, ⟨span, env, rest, hpending⟩, rfl⟩
  refine ⟨fun span name env resume hasks => ?_,
    fun hsheltered function receiver hheld hthis => ?_⟩
  · obtain ⟨around, hsees, hspots⟩ := hgoverns.hasExpr_super hasks
    have hspot : ⟨.expr (.super span name), around⟩ ∈ program.spots :=
      hspots _ (Expr.mem_spots_self around _)
    refine ⟨around, hspot, hsees, fun method decl hmethod => ?_⟩
    obtain ⟨receiver, closure, inst, superclass, hview, hthis, hsuper⟩ :=
      hgoverns.world.methodView hsees (hproper.paired _ hspot) hmethod
    obtain ⟨cls, hcls, -, earlier, hearlier, hmakes⟩ :=
      hgoverns.world.scopes closure _ hview.declares
    obtain rfl : superclass = cls := by simpa using hview.super.symm.trans hcls
    refine ⟨receiver, closure, inst, superclass, earlier, hview, hearlier,
      hmakes, ?_, ?_⟩
    · -- the scope is there, so it was made before
      rcases htraced.reaches.total hearlier with hafter | hbefore
      · have hlt := Heap.lt_size_of_get? hview.super
        have hle := hafter.size_le
        rw [hmakes.scope] at hle
        exact absurd hlt (Nat.not_lt.2 hle)
      · exact hbefore
    · rw [hasks.step_eq ctx]
      cases hfound : superclass.findMethod? name.node <;>
        simp only [World.superMethod, hsuper, hthis, hfound]
  · exact hgoverns.world.holder_of_this hsheltered (hgoverns.hasValue hheld) hthis

/-- A class inherits a method that asks for `super` in a block. -/
def heirText : String :=
  "class A = { func f() = { } } class B : A = { func f() = { { return super.f(); } } }
    class C : B = { } C().f();"

/-- The state of a run of the text that asks for `super`. -/
def heirAsks (program : Program) : Machine :=
  (Machine.ofProgram (.start []) program).run bareContext 20

/-- Whether every `super` stands in a method of a class that has a superclass. -/
def supersIn (program : Program) : Bool :=
  program.spots.all fun spot =>
    match spot.piece with
    | .expr (.super _ _) => (Origin.subclassMethod? spot.around).isSome
    | _ => true

/-- The method that runs, as it is bound, with its receiver. -/
def running? (m : Machine) : Option (Function × Instance) :=
  m.pending.findSome? fun entry =>
    match entry with
    | .result function =>
      match (m.world.heap.bindings function.closure).get? "this" with
      | some (.inst inst) => some (function, inst)
      | _ => none
    | _ => none

private theorem running?_eq_some {inst : Instance}
    (h : m.running? = some (function, inst)) :
    .value (.callable (.function function)) ∈ m.contents ∧
      (m.world.heap.bindings function.closure).get? "this" = some (.inst inst) := by
  obtain ⟨entry, hentry, hfound⟩ := List.exists_of_findSome?_eq_some h
  split at hfound
  · split at hfound
    · rename_i hthis
      cases hfound
      refine ⟨List.mem_append_right _
        (List.mem_append_right _ (List.mem_flatMap.2 ⟨_, hentry, ?_⟩)), hthis⟩
      exact List.mem_singleton_self _
    · cases hfound
  · cases hfound

/-- Whether a state calls what `super` means, and of which class the receiver of the
method that runs is. -/
def asker? (m : Machine) : Option String :=
  match m.control with
  | .eval (.call _ _ (.super _ _) _) _ => m.running?.map fun found => found.2.cls.name
  | _ => none

theorem asker?_eq_some {name : String} (h : m.asker? = some name) :
    (∃ span method env resume, m.AsksSuper span method env resume) ∧
      ∃ function inst, m.running? = some (function, inst) ∧ inst.cls.name = name := by
  obtain ⟨world, control, pending⟩ := m
  unfold asker? at h
  split at h
  · rename_i hcontrol
    cases hcontrol
    obtain ⟨⟨function, inst⟩, hrunning, hname⟩ := Option.map_eq_some_iff.1 h
    exact ⟨⟨_, _, _, _, .call⟩, function, inst, hrunning, hname⟩
  · cases h

theorem super_static_this_dynamic_inherited :
    ∃ program next origins span name env resume around method decl receiver closure
      inst superclass,
      Source.read 0 heirText = (.ok program, next) ∧
      Traced bareContext ((Task.run program).machine (.start []))
        (heirAsks program) origins ∧
      (heirAsks program).AsksSuper span name env resume ∧
      ⟨.expr (.super span name), around⟩ ∈ program.spots ∧
      Origin.subclassMethod? around = some (method, decl) ∧
      MethodView ⟨(heirAsks program).world.heap, origins⟩ env method decl receiver
        closure inst superclass ∧
      ∃ function held,
        .value (.callable (.function function)) ∈ (heirAsks program).contents ∧
        ((heirAsks program).world.heap.bindings function.closure).get? "this" =
          some (.inst held) ∧ held.cls.name = "C" ∧
        ∃ cls ∈ held.cls.lineage, ∃ name method, cls.methods.get? name = some method ∧
          method.decl = function.decl := by
  have hfacts : ((Source.read 0 heirText).1.toOption.bind fun program =>
      (heirAsks program).asker?.map fun name => (name, supersIn program)) =
        some ("C", true) := by decide +kernel
  obtain ⟨program, hprogram, hasked⟩ := Option.bind_eq_some_iff.1 hfacts
  have hread : Source.read 0 heirText = (.ok program, (Source.read 0 heirText).2) := by
    generalize Source.read 0 heirText = found at hprogram
    obtain ⟨_ | parsed, next⟩ := found <;> cases hprogram
    rfl
  obtain ⟨_, hasker, hpair⟩ := Option.map_eq_some_iff.1 hasked
  obtain ⟨rfl, hsupers⟩ := Prod.mk.inj hpair
  obtain ⟨⟨span, name, env, resume, hasks⟩, function, held, hrunning, hclass⟩ :=
    asker?_eq_some hasker
  obtain ⟨hheld, hthis⟩ := running?_eq_some hrunning
  have hmake : Use.run.task? = some Task.run := rfl
  have hreaches : Reaches bareContext ((Task.run program).machine (.start []))
      (heirAsks program) :=
    .run bareContext 20 _
  obtain ⟨origins, htraced⟩ := hreaches.exists_traced
  have hsheltered : ∀ span name around, ⟨.expr (.super span name), around⟩ ∈
    program.spots →
      (Origin.subclassMethod? around).isSome = true :=
        fun _ _ _ hspot => List.all_eq_true.1 hsupers _ hspot
  obtain ⟨hstatic, hdynamic⟩ := super_static_this_dynamic hread hmake htraced
  obtain ⟨around, hspot, -, hmethods⟩ := hstatic span name env resume hasks
  obtain ⟨⟨method, decl⟩, haround⟩ :=
    Option.isSome_iff_exists.1 (hsheltered span name around hspot)
  obtain ⟨receiver, closure, inst, superclass, _, hview, -⟩ :=
    hmethods method decl haround
  obtain ⟨_, hsame, cls, hcls, holds, found, hfound, hdecl, -⟩ :=
    hdynamic hsheltered function _ hheld hthis
  cases hsame
  exact ⟨program, _, origins, span, name, env, resume, around, method, decl, receiver,
    closure, inst, superclass, hread, htraced, hasks, hspot, haround, hview, function,
    held, hheld, hthis, hclass, cls, hcls, holds, found, hfound, hdecl⟩

end Machine

end Treewalk
