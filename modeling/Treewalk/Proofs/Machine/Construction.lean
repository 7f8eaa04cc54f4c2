import Treewalk.Proofs.Machine.Underway
import Treewalk.Proofs.Scope.LayoutRun

/-!
# Constructors and initializers

Calling a class makes an instance and runs the initializer on it, in a scope that binds
`this` to the instance. The call gives the instance, whatever the initializer does, and
an initializer that is called as a method gives its receiver: the value of its body is
never looked at.
-/

namespace Treewalk

open List

variable {cls : Class} {name : String} {layout : Layout} {function : Function}
  {program : Program}

/-! ## Required arguments -/

/-- The number of arguments that the last initializer of the first of these classes that
has one takes. -/
def requiredArguments (decls : List ClassDecl) : Nat :=
  match decls.findSome? fun decl => decl.method? Class.initializer with
  | some init => init.arity
  | none => 0

/-- The class was made of a declaration of the program: it has the methods that are
declared there, of several of one name the last. -/
structure Class.MadeOf (program : Program) (cls : Class) (decl : ClassDecl) : Prop where
  stands : ∃ span around, ⟨.stmt (.classDecl span decl), around⟩ ∈ program.spots
  name : cls.name = decl.name.node
  methods : ∀ name, (cls.methods.get? name).map Function.decl = decl.method? name

private theorem Class.findMethod?_map_decl {program : Program} (name : String) :
    ∀ {cls : Class} {decls : List ClassDecl},
    List.Forall₂ (Class.MadeOf program) cls.lineage decls →
      (cls.findMethod? name).map Function.decl = decls.findSome? fun decl =>
        decl.method? name
  | .mk _ _ none methods, _, .cons hmade .nil => by
    rw [List.findSome?_cons, ← hmade.methods name, Class.findMethod?, Class.methods]
    cases methods.get? name <;> rfl
  | .mk _ _ (some superclass) methods, _, .cons hmade hrest => by
    rw [List.findSome?_cons, ← hmade.methods name, Class.findMethod?, Class.methods]
    cases methods.get? name with
    | some method => rfl
    | none => exact findMethod?_map_decl name hrest

private theorem Class.arity_eq {decls : List ClassDecl}
    (h : List.Forall₂ (Class.MadeOf program) cls.lineage decls) :
    cls.arity = requiredArguments decls := by
  rw [requiredArguments, ← Class.findMethod?_map_decl Class.initializer h, Class.arity]
  cases cls.findMethod? Class.initializer <;> rfl

private theorem Layout.HasClass.exists_madeOf {log : History}
    (h : program.layout.HasClass log cls) :
    ∃ decls, List.Forall₂ (Class.MadeOf program) cls.lineage decls := by
  have hmade : ∀ ancestor ∈ cls.lineage, ∃ decl, ancestor.MadeOf program decl := by
    intro ancestor hancestor
    obtain ⟨decl, around, closure, hfrom⟩ := h ancestor hancestor
    exact ⟨decl, hfrom.spot.imp fun _ hspot => ⟨around, hspot⟩, hfrom.name,
      hfrom.methods⟩
  generalize cls.lineage = lineage at hmade
  clear h
  induction lineage with
  | nil => exact ⟨[], .nil⟩
  | cons ancestor rest ih =>
    obtain ⟨hfirst, hrest⟩ := forall_mem_cons.1 hmade
    obtain ⟨decl, hdecl⟩ := hfirst
    obtain ⟨decls, hdecls⟩ := ih hrest
    exact ⟨decl :: decls, .cons hdecl hdecls⟩

/-! ## Receivers of initializers -/

private theorem Heap.getAt_zero {heap : Heap} {scope : ScopeId} {value : Value}
    (h : (heap.bindings scope).get? name = some value) :
    heap.getAt scope 0 name = .ok value := by
  have hlt := Heap.lt_size_of_get? h
  have hchain : (heap.chain scope)[0]? = some scope := by
    rw [Heap.chain, Array.getElem?_eq_getElem hlt]
    rfl
  simp only [Heap.getAt, Heap.ancestor, hchain, h]

private theorem Layout.HasClass.isInit_eq {log : History} (h : layout.HasClass log cls)
    {method : Function} (hmethod : cls.findMethod? name = some method) :
    method.isInit = (name == Class.initializer) := by
  obtain ⟨ancestor, hancestor, hheld⟩ := Class.exists_of_findMethod? hmethod
  obtain ⟨decl, around, closure, hfrom⟩ := h ancestor hancestor
  exact hfrom.initializer name method hheld

private theorem Layout.Keeps.this_of_isInit {origins : List Origin} {world : World}
    (h : layout.Keeps origins world)
    (hfunction : layout.HasValue ⟨world.heap, origins⟩ (.callable (.function function)))
    (hinit : function.isInit = true) :
    ∃ inst, (world.heap.bindings function.closure).get? "this" = some (.inst inst) := by
  obtain ⟨around, hfrom⟩ := hfunction
  rcases hfrom.bound with hreceiver | ⟨hplain, -⟩
  · obtain ⟨outside, rfl⟩ := List.head?_eq_some_iff.1 hreceiver
    obtain ⟨inst, hthis, -, -⟩ := h.scopes function.closure _ hfrom.sees.origin_eq
    exact ⟨inst, hthis⟩
  · rw [hplain] at hinit
    cases hinit

namespace Machine

open Layout

variable {m : Machine}

/-! ## The value of a call -/

section Values

variable {ctx : Context} {world : World} {pending : List Pending} {final : Machine}
  {value : Value} {args : List Value}

private theorem Delivers.control_fail (h : Delivers ctx pending m final)
    {error : RuntimeError} (herror : m.control = .fail error) :
    ∃ error, final.control = .fail error :=
  h.keeps (P := fun m => ∃ error, m.control = .fail error)
    (fun _ hfail _ => by
      obtain ⟨error, herror⟩ := hfail
      obtain ⟨error', herror', -⟩ := cause_step_of_fail ctx herror
      exact ⟨error', herror'⟩)
    ⟨error, herror⟩

theorem Delivers.not_fail (h : Delivers ctx pending m final)
    (hvalue : final.control = .value value) (error : RuntimeError) :
    m.control ≠ .fail error := by
  intro herror
  obtain ⟨error', herror'⟩ := h.control_fail herror
  rw [hvalue] at herror'
  cases herror'

/-- The value of a body is what the function makes of the flow that ends it. -/
private theorem Delivers.exists_resultOf
    (h : Delivers ctx pending (callFunction world pending function args) final)
    (hvalue : final.control = .value value) :
    ∃ middle flow, Reaches ctx (callFunction world pending function args) middle ∧
      middle.pending = .result function :: pending ∧
      resultOf middle.world function flow = .ok value := by
  have habove : .result function :: pending <:+
      (callFunction world pending function args).pending :=
    suffix_cons _ _
  obtain ⟨middle, hmiddle, hfinal⟩ := h.split habove
  have hpending := hmiddle.pending
  have houtcome := hmiddle.outcome
  have hreaches := hmiddle.reaches
  obtain ⟨world', control, _⟩ := middle
  obtain rfl := hpending
  cases control with
  | value returned =>
    -- a body ends with no value of its own, and such a state stays as it is
    exact (hfinal.not_still rfl rfl).elim
  | flow flow =>
    refine ⟨_, flow, hreaches, rfl, ?_⟩
    have hanswer : Delivers ctx pending
      (answer world' pending none (resultOf world' function flow)) final := hfinal
    cases hresult : resultOf world' function flow with
    | ok result =>
      rw [hresult] at hanswer
      rw [hanswer.eq_of_arrived rfl rfl] at hvalue
      cases hvalue
      rfl
    | error cause =>
      rw [hresult] at hanswer
      exact absurd rfl (hanswer.not_fail hvalue ⟨cause, none⟩)
  | fail error => exact absurd rfl (hfinal.not_fail hvalue error)
  | _ => cases houtcome

/-- A class that is called gives the instance that it makes, whatever the initializer
does. -/
theorem Delivers.construct_eq
    (h : Delivers ctx pending (construct world pending cls args) final)
    (hvalue : final.control = .value value) :
    value = .inst (world.heap.makeInstance cls).1 := by
  simp only [construct] at h
  cases hinit : cls.findMethod? Class.initializer with
  | none =>
    simp only [hinit] at h
    rw [h.eq_of_arrived rfl rfl] at hvalue
    cases hvalue
    rfl
  | some init =>
    simp only [hinit] at h
    obtain ⟨middle, hmiddle, hfinal⟩ :=
      h.split ((suffix_cons _ _).trans (suffix_cons _ _))
    have hpending := hmiddle.pending
    have houtcome := hmiddle.outcome
    obtain ⟨world', control, _⟩ := middle
    obtain rfl := hpending
    cases control with
    | value returned =>
      rw [hfinal.eq_of_arrived rfl rfl] at hvalue
      cases hvalue
      rfl
    | flow flow => exact (hfinal.not_still rfl rfl).elim
    | fail error => exact absurd rfl (hfinal.not_fail hvalue error)
    | _ => cases houtcome

/-- A class that is called needs its number of arguments, and gives the instance that it
makes. -/
private theorem Delivers.invoke_class {callee : Value}
    (hcallee : callee.callable? = some (.cls cls))
    (h : Delivers ctx pending (invoke world pending name callee args) final)
    (hvalue : final.control = .value value) :
    args.length = cls.arity ∧ value = .inst (world.heap.makeInstance cls).1 := by
  simp only [invoke, hcallee] at h
  by_cases harity : args.length = Callable.arity (.cls cls)
  · rw [if_pos harity] at h
    exact ⟨harity, h.construct_eq hvalue⟩
  · rw [if_neg harity] at h
    exact absurd rfl (h.not_fail hvalue _)

/-- A function that is called and gives a value has run its body. -/
private theorem Delivers.invoke_function {base : List Pending}
    (h : Delivers ctx base
      (invoke world pending name (.callable (.function function)) args) final)
    (hvalue : final.control = .value value) :
    invoke world pending name (.callable (.function function)) args =
      callFunction world pending function args := by
  by_cases harity : args.length = function.arity
  · exact if_pos harity
  · have hfails : invoke world pending name (.callable (.function function)) args =
        failAt world pending (.arity name function.arity args.length) none :=
      if_neg harity
    rw [hfails] at h
    exact absurd rfl (h.not_fail hvalue _)

/-- An initializer that gives a value gives what its scope binds `this` to. -/
private theorem Delivers.invoke_initializer (hinit : function.isInit = true)
    (h : Delivers ctx pending
      (invoke world pending name (.callable (.function function)) args) final)
    (hvalue : final.control = .value value) :
    ∃ middle, Reaches ctx (invoke world pending name (.callable (.function function))
      args) middle ∧ middle.world.heap.getAt function.closure 0 "this" = .ok value := by
  have hbody := h.invoke_function hvalue
  rw [hbody] at h ⊢
  obtain ⟨middle, flow, hreaches, -, hresult⟩ := h.exists_resultOf hvalue
  simp only [resultOf, if_pos hinit] at hresult
  exact ⟨middle, hreaches, hresult⟩

/-- A call that gives a value has evaluated its arguments. -/
private theorem Delivers.exists_complete {span : Option Span} {call : Call}
    {args : List Expr} {done : List (Expr × Value)}
    (h : Delivers ctx pending
      (nextArgument ctx world (.leave span :: pending) call done args) final)
    (hvalue : final.control = .value value) :
    ∃ world' done',
      Reaches ctx (nextArgument ctx world (.leave span :: pending) call done args)
        (complete ctx world' (.leave span :: pending) call done') ∧
      Delivers ctx pending (complete ctx world' (.leave span :: pending) call done')
        final := by
  induction args generalizing world done with
  | nil => exact ⟨world, done.reverse, .start, h⟩
  | cons expr rest ih =>
    have htop : pending <:+ .argument call done expr rest :: .leave span :: pending :=
      (suffix_cons _ _).trans (suffix_cons _ _)
    obtain ⟨middle, hmiddle, hfinal⟩ := h.through htop (suffix_refl _)
    have hpending := hmiddle.pending
    have hcontrol := hmiddle.control_expr
    have hreaches := hmiddle.reaches
    obtain ⟨world', control, _⟩ := middle
    obtain rfl := hpending
    have hnext := hfinal.next fun hsame => by
      have hlength := congrArg List.length hsame
      simp at hlength
      omega
    rcases hcontrol with ⟨first, hfirst⟩ | ⟨error, herror⟩
    · obtain rfl : control = .value first := hfirst
      obtain ⟨world'', done', hcomplete, hdelivers⟩ := ih hnext
      exact ⟨world'', done', hreaches.trans (.trans (.step .start) hcomplete),
        hdelivers⟩
    · exact absurd herror (hfinal.not_fail hvalue error)

private theorem Delivers.value_of_leave {span : Option Span}
    (h : Delivers ctx pending m final) (outcome : m.control.isOutcome = true)
    (hpending : m.pending = .leave span :: pending)
    (hvalue : final.control = .value value) : m.control = .value value := by
  obtain ⟨world', control, _⟩ := m
  obtain rfl := hpending
  cases control with
  | value returned =>
    rw [(h.next (cons_ne_self _ _)).eq_of_arrived rfl rfl] at hvalue
    exact hvalue
  | flow flow => exact (h.not_still rfl rfl).elim
  | fail error => exact absurd rfl (h.not_fail hvalue error)
  | _ => cases outcome

/-- A call of an initializer gives what the scope of the initializer binds `this` to. -/
private theorem Delivers.startCall_initializer (function : Function)
    (hinit : function.isInit = true) {span : Span} {env : ScopeId} {args : List Expr}
    (h : Delivers ctx pending (startCall ctx world pending
      ⟨span, name, .found (.callable (.function function)), env⟩ args) final)
    (hvalue : final.control = .value value) :
    ∃ middle, Reaches ctx (startCall ctx world pending
        ⟨span, name, .found (.callable (.function function)), env⟩ args) middle ∧
      middle.world.heap.getAt function.closure 0 "this" = .ok value := by
  unfold startCall enter at h ⊢
  split at h
  · exact absurd rfl (h.not_fail hvalue _)
  rename_i hdepth
  rw [if_neg hdepth]
  obtain ⟨world', done, hreaches, hdelivers⟩ := h.exists_complete hvalue
  change Delivers ctx pending
    (invoke ⟨world'.heap, world'.frames.addAll (namedArguments done), world'.output⟩
      (.leave (some span) :: pending) name (.callable (.function function))
      (done.map (·.2))) final at hdelivers
  have habove : .leave (some span) :: pending <:+
      (invoke ⟨world'.heap, world'.frames.addAll (namedArguments done), world'.output⟩
        (.leave (some span) :: pending) name (.callable (.function function))
          (done.map (·.2))).pending := by
    rw [hdelivers.invoke_function hvalue]
    exact (suffix_cons _ _).trans (suffix_cons _ _)
  obtain ⟨ended, hended, hfinal⟩ := hdelivers.through (suffix_cons _ _) habove
  have hcontrol := hfinal.value_of_leave hended.outcome hended.pending hvalue
  obtain ⟨middle, hmiddle, hthis⟩ := hended.invoke_initializer hinit hcontrol
  exact ⟨middle, hreaches.trans hmiddle, hthis⟩

/-- A method that is bound and called gives its receiver, if it is an initializer. -/
private theorem Delivers.receiver_of_initializer (hproper : layout.Proper)
    (hdeclared : ∀ decl superclass scope, layout.declared decl superclass scope)
    {method : Function} (hinit : method.isInit = true) {receiver : Value} {span : Span}
    {env : ScopeId} {args : List Expr} {origins : List Origin}
    (hgoverns : layout.Governs origins (startCall ctx (world.bind method receiver).2
      pending ⟨span, name, .found (world.bind method receiver).1, env⟩ args))
    (h : Delivers ctx pending (startCall ctx (world.bind method receiver).2 pending
      ⟨span, name, .found (world.bind method receiver).1, env⟩ args) final)
    (hvalue : final.control = .value value) : value = receiver := by
  obtain ⟨middle, hreaches, hthis⟩ :=
    Delivers.startCall_initializer (world.heap.bind method receiver).1 hinit h hvalue
  obtain ⟨origins', -, hgrows⟩ :=
    exists_governs_of_reaches hproper hdeclared hgoverns hreaches
  -- the receiver is bound when the method is, and stays bound
  have hbound :
      ((world.bind method receiver).2.heap.bindings world.heap.scopes.size).get?
      "this" = some receiver :=
    (congrArg (Table.get? "this")
      (Heap.bindings_makeScope_self world.heap (world.heap.chain method.closure)
        [("this", receiver)])).trans rfl
  have hedits : (world.bind method receiver).2.heap.Edits (fun _ _ => False)
      (startCall ctx (world.bind method receiver).2 pending
        ⟨span, name, .found (world.bind method receiver).1, env⟩ args).world.heap :=
    (leads_startCall .none _ args : Leads ctx _ True _ _ _).does.heap
  have hstart :=
    (hedits.get?_bindings (Heap.lt_size_of_get? hbound) not_false).trans hbound
  have hkept := (hgrows.word (Heap.lt_size_of_get? hstart) (.inl rfl)).trans hstart
  exact Except.ok.inj (hthis.symm.trans (Heap.getAt_zero hkept))

end Values

/-! ## Runs of programs -/

/-- In every run of a program that was read: a class needs as many arguments as the last
initializer of the nearest class that declares one takes. A call of the class with
another number fails, and if a call gives a value, then this is an instance of the class
that was not there before. The scope of an initializer binds `this`, and an initializer
that is called through an instance or through `super` gives its receiver, if it gives a
value. -/
theorem class_and_initializer_calls {n next : NodeId} {source : String}
    {program : Program} (hread : Source.read n source = (.ok program, next)) {use : Use}
    {make : Program → Task} (hmake : use.task? = some make) {natives : List Native}
    {ctx : Context} {m : Machine}
    (hreaches : Reaches ctx ((make program).machine (.start natives)) m) :
    (∀ callee cls, .value callee ∈ m.contents → callee.callable? = some (.cls cls) →
      (∃ decls, List.Forall₂ (Class.MadeOf program) cls.lineage decls ∧
        cls.arity = requiredArguments decls) ∧
      ∀ frames output pending name args,
        let called := invoke ⟨m.world.heap, frames, output⟩ pending name callee args
        (args.length ≠ cls.arity →
          called = failAt ⟨m.world.heap, frames, output⟩ pending
            (.arity name cls.arity args.length) none) ∧
        ∀ final value, Delivers ctx pending called final →
          final.control = .value value → ∃ inst, value = .inst inst ∧ inst.cls = cls ∧
            m.world.heap.fields.size ≤ inst.address) ∧
    (∀ inst, .value (.inst inst) ∈ m.contents →
      inst.address < m.world.heap.fields.size) ∧
    (∀ function, .value (.callable (.function function)) ∈ m.contents →
      function.isInit = true →
      ∃ inst, m.world.heap.getAt function.closure 0 "this" = .ok (.inst inst) ∧
        ∀ world pending name args final value,
          m.step ctx = invoke world pending name (.callable (.function function)) args →
          Delivers ctx pending (m.step ctx) final → final.control = .value value →
            value = .inst inst) ∧
    (∀ world inst span access args env pending method,
      m = ⟨world, .value (.inst inst),
        .receiver span access Class.initializer args env :: pending⟩ →
      world.property (.inst inst) Class.initializer = .ok (.method method, inst) →
      ∀ final value, Delivers ctx pending (m.step ctx) final →
        final.control = .value value → value = .inst inst) ∧
    ∀ world span id access name args env pending method receiver,
      m = ⟨world, .eval (.call span id (.super access name) args) env, pending⟩ →
      name.node = Class.initializer →
      world.superMethod name.node env = .ok (method, receiver) →
      ∀ final value, Delivers ctx pending (m.step ctx) final →
        final.control = .value value → value = receiver := by
  have hproper := Source.proper_of_read hread
  have hdeclared : ∀ decl superclass scope, program.layout.declared decl superclass
    scope := fun _ _ _ => trivial
  obtain ⟨origins, hgoverns, -⟩ := exists_governs_of_reaches hproper hdeclared
    (governs_machine (keeps_start natives) (fun _ hspot => hspot) hmake) hreaches
  have hnext : program.layout.Governs (origins ++ m.opened ctx) (m.step ctx) :=
    hgoverns.step hproper fun _ _ _ _ _ _ _ => trivial
  refine ⟨fun callee cls hheld hcallee =>
    ⟨?_, fun frames output pending name args => ⟨fun harity => ?_, ?_⟩⟩, ?_, ?_, ?_, ?_⟩
  · have hcls : program.layout.HasClass ⟨m.world.heap, origins⟩ cls := by
      have hvalue := hgoverns.hasValue hheld
      cases callee with
      | callable callable =>
        cases hcallee
        exact hvalue
      | cls cls =>
        cases hcallee
        exact hvalue
      | _ => cases hcallee
    obtain ⟨decls, hdecls⟩ := hcls.exists_madeOf
    exact ⟨decls, hdecls, Class.arity_eq hdecls⟩
  · simp only [invoke, hcallee]
    exact if_neg harity
  · intro final value hfinal hvalue
    obtain ⟨-, rfl⟩ := hfinal.invoke_class hcallee hvalue
    exact ⟨_, rfl, rfl, Nat.le_refl _⟩
  · intro inst hheld
    exact (hgoverns.hasValue hheld).2
  · intro function hheld hinit
    obtain ⟨inst, hthis⟩ :=
      hgoverns.world.this_of_isInit (hgoverns.hasValue hheld) hinit
    refine ⟨inst, Heap.getAt_zero hthis,
      fun world pending name args final value hstep hfinal hvalue => ?_⟩
    have hfirst : Reaches ctx m (m.step ctx) := .step .start
    rw [hstep] at hfinal hfirst
    obtain ⟨middle, hmiddle, hresult⟩ := hfinal.invoke_initializer hinit hvalue
    obtain ⟨_, -, hgrows⟩ :=
      exists_governs_of_reaches hproper hdeclared hgoverns (hfirst.trans hmiddle)
    have hkept := (hgrows.word (Heap.lt_size_of_get? hthis) (.inl rfl)).trans hthis
    exact Except.ok.inj (hresult.symm.trans (Heap.getAt_zero hkept))
  · rintro world inst span access args env pending method rfl hproperty final value
      hfinal hvalue
    obtain ⟨-, ⟨_, hfield, -⟩ | ⟨_, hsame, hmethod⟩⟩ := World.property_eq_ok hproperty
    · cases hfield
    cases hsame
    have hstep : Machine.step ctx
        ⟨world, .value (.inst inst), .receiver span access Class.initializer args env ::
          pending⟩ =
        startCall ctx (world.bind method (.inst inst)).2 pending
          ⟨span, Class.initializer, .found (world.bind method (.inst inst)).1, env⟩
            args := by
      simp only [Machine.step, receive, hproperty, World.take]
    rw [hstep] at hnext hfinal
    exact hfinal.receiver_of_initializer hproper hdeclared
      (hgoverns.control.1.isInit_eq hmethod) hnext hvalue
  · rintro world span id access name args env pending method receiver rfl hname hfound
      final value hfinal hvalue
    obtain ⟨superclass, hsuper, -, hmethod⟩ := World.superMethod_eq_ok_iff.1 hfound
    have hclass : program.layout.HasClass ⟨world.heap, origins⟩ superclass :=
      hgoverns.world.values.heap.lookup? hsuper
    have hinit : method.isInit = true := by
      rw [hclass.isInit_eq hmethod, hname]
      rfl
    have hstep : Machine.step ctx
      ⟨world, .eval (.call span id (.super access name) args) env, pending⟩ =
        startCall ctx (world.bind method receiver).2 pending
          ⟨span, name.node, .found (world.bind method receiver).1, env⟩ args := by
      simp only [Machine.step, evaluate, evaluateCall, hfound]
    rw [hstep] at hnext hfinal
    exact hfinal.receiver_of_initializer hproper hdeclared hinit hnext hvalue

private theorem control_of_outcome? {value : Value}
    (h : m.outcome? = some (.ok (some value))) :
    m.control = .value value := by
  unfold outcome? at h
  split at h <;> cases h
  rfl

/-- A class inherits the last of two initializers, which returns something. -/
def pointText : String :=
  "class P = { func init(a) = { } func init(a, b) = { this.a = 3; return 5; } }
    class Q : P = { }"

/-- The classes of a text are declared. -/
def declared (program : Program) : Machine :=
  (Machine.ofProgram (.start []) program).run bareContext 20

/-- A call of a global class with two arguments. -/
def callWithTwo (heap : Heap) (name : String) (callee : Value) : Machine :=
  invoke ⟨heap, Frames.empty, ""⟩ [] name callee [.number 1, .number 2]

/-- What becomes of a call of `Q`: the number of arguments that the class needs, and the
address of the instance. -/
def madeOf? (program : Program) : Option (Nat × Nat) :=
  match ((declared program).world.heap.bindings globalScope).get? "Q" with
  | some (.cls cls) =>
    match ((callWithTwo (declared program).world.heap "Q" (.cls cls)).run bareContext
      20).outcome? with
    | some (.ok (some (.inst inst))) => some (cls.arity, inst.address)
    | _ => none
  | _ => none

theorem class_and_initializer_calls_inherited :
    ∃ program next cls inst final, Source.read 0 pointText = (.ok program, next) ∧
      Reaches bareContext ((Task.run program).machine (.start [])) (declared program) ∧
      .value (.cls cls) ∈ (declared program).contents ∧
      Delivers bareContext []
        (callWithTwo (declared program).world.heap "Q" (.cls cls)) final ∧
      final.control = .value (.inst inst) ∧ inst.cls = cls ∧ cls.arity = 2 ∧
      (declared program).world.heap.fields.size ≤ inst.address := by
  have hfacts : ((Source.read 0 pointText).1.toOption.bind madeOf?) = some (2, 0) := by
    decide +kernel
  obtain ⟨program, hprogram, hmade⟩ := Option.bind_eq_some_iff.1 hfacts
  have hread : Source.read 0 pointText =
      (.ok program, (Source.read 0 pointText).2) := by
    generalize Source.read 0 pointText = found at hprogram
    obtain ⟨_ | parsed, next⟩ := found <;> cases hprogram
    rfl
  have hmake : Use.run.task? = some Task.run := rfl
  have hreaches : Reaches bareContext ((Task.run program).machine (.start []))
      (declared program) :=
    .run bareContext 20 _
  unfold madeOf? at hmade
  split at hmade
  · rename_i cls hcls
    split at hmade
    · rename_i inst houtcome
      obtain ⟨harity, -⟩ := Prod.mk.inj (Option.some.inj hmade)
      have hfinal : Delivers bareContext []
        (callWithTwo (declared program).world.heap "Q" (.cls cls))
          ((callWithTwo (declared program).world.heap "Q" (.cls cls)).run
            bareContext 20) :=
        .of_run (by rw [isFinal, houtcome]; rfl)
      have hvalue := control_of_outcome? houtcome
      have hheld : .value (.cls cls) ∈ (declared program).contents := by
        refine mem_append_left _ (mem_append_left _ ?_)
        exact ((Heap.holds_contents _).bindings globalScope).get? hcls
      obtain ⟨-, hcalls⟩ :=
        (class_and_initializer_calls hread hmake hreaches).1 _ cls hheld rfl
      obtain ⟨made, hsame, hmade, haddress⟩ :=
        (hcalls Frames.empty "" [] "Q" _).2 _ _ hfinal hvalue
      cases hsame
      exact ⟨program, _, cls, inst, _, hread, hreaches, hheld, hfinal, hvalue, hmade,
        harity, haddress⟩
    · cases hmade
  · cases hmade

end Machine

end Treewalk
