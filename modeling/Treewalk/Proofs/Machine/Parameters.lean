import Treewalk.Proofs.Machine.Underway
import Treewalk.Proofs.Scope.Event

/-!
# What a parameter reads as

The values of the arguments go to two places: by position into the scope of the body,
and by their own names, where they are plain variables, into the frame of the call. The
frame is read first. So a parameter that is spelled like one of the arguments reads as
that argument, wherever it stands, and any other parameter as the argument at its
position; of several, the last one counts in both places (`parameterValue?`).
-/

namespace Treewalk

open List

variable {args : List Expr} {values : List Value}

/-- The value at the last position whose key passes a test. -/
def lastWhere {α : Type} (test : α → Bool) : List α → List Value → Option Value
  | key :: keys, value :: values =>
    (lastWhere test keys values).or (if test key then some value else none)
  | _, _ => none

/-- Whether an expression is a plain variable of that name. -/
def Expr.spells (name : String) : Expr → Bool
  | .var _ _ other => other == name
  | _ => false

/-- What a parameter reads as when the body begins: the last argument that is spelled
like it, or else the argument at its last position. -/
def parameterValue? (params : List String) (args : List Expr) (values : List Value)
    (name : String) :
    Option Value :=
  (lastWhere (Expr.spells name) args values).or (lastWhere (· == name) params values)

section LastWhere

variable {α : Type} {test : α → Bool} {keys : List α} {values : List Value}

private theorem lastWhere_eq_none_iff (hlength : keys.length = values.length) :
    lastWhere test keys values = none ↔ ∀ key ∈ keys, test key = false := by
  induction keys generalizing values with
  | nil => simp [lastWhere]
  | cons key keys ih =>
    cases values with
    | nil => cases hlength
    | cons value values =>
      rw [lastWhere, Option.or_eq_none_iff, ih (Nat.succ.inj hlength),
        forall_mem_cons, and_comm]
      cases test key <;> simp

theorem exists_of_lastWhere {value : Value}
    (h : lastWhere test keys values = some value) :
    ∃ (i : Nat) (key : α), keys[i]? = some key ∧ test key = true ∧
      values[i]? = some value := by
  induction keys generalizing values with
  | nil => cases h
  | cons key keys ih =>
    cases values with
    | nil => cases h
    | cons first values =>
      rcases Option.or_eq_some_iff.1 h with hlater | ⟨-, hhere⟩
      · obtain ⟨i, key, hkey, htest, hvalue⟩ := ih hlater
        exact ⟨i + 1, key, hkey, htest, hvalue⟩
      · split at hhere
        · rename_i htest
          exact ⟨0, key, rfl, htest, hhere⟩
        · cases hhere

/-- The value at a position after which no key passes the test. -/
private theorem lastWhere_of_last (hlength : keys.length = values.length) {i : Nat}
    {key : α} (hkey : keys[i]? = some key) (htest : test key = true)
    (hlast : ∀ j > i, ∀ key, keys[j]? = some key → test key = false) :
    lastWhere test keys values = values[i]? := by
  induction keys generalizing values i with
  | nil => cases hkey
  | cons first keys ih =>
    cases values with
    | nil => cases hlength
    | cons value values =>
      rw [lastWhere]
      cases i with
      | zero =>
        obtain rfl : first = key := Option.some.inj hkey
        have hnone : lastWhere test keys values = none := by
          rw [lastWhere_eq_none_iff (Nat.succ.inj hlength)]
          intro key hmem
          obtain ⟨j, hj⟩ := List.getElem?_of_mem hmem
          exact hlast (j + 1) (Nat.succ_pos j) key hj
        rw [hnone, htest]
        rfl
      | succ i =>
        rw [List.getElem?_cons_succ] at hkey ⊢
        have hlater :=
          ih (Nat.succ.inj hlength) hkey fun j hj => hlast (j + 1) (Nat.succ_lt_succ hj)
        have hbound : i < values.length := by
          rw [← Nat.succ.inj hlength]
          exact (List.getElem?_eq_some_iff.1 hkey).1
        rw [hlater, List.getElem?_eq_getElem hbound]
        rfl

end LastWhere

/-! ## Both places -/

private theorem Table.get?_put (name key : String) (value : Value)
    (table : Table Value) :
    (table.put key value).get? name = (if key == name then some value else none).or
      (table.get? name) := by
  by_cases hkey : key = name
  · simp [hkey]
  · rw [Table.get?_put_of_ne (Ne.symm hkey)]
    simp [hkey]

/-- Of several entries of a name the last one stays. -/
theorem Table.get?_putAll_zip (name : String) (keys : List String) (values : List Value)
    (table : Table Value) :
    (table.putAll (keys.zip values)).get? name = (lastWhere (· == name) keys values).or
      (table.get? name) := by
  induction keys generalizing values table with
  | nil => rfl
  | cons key keys ih =>
    cases values with
    | nil => rfl
    | cons value values =>
      rw [zip_cons_cons, Table.putAll, foldl_cons, ← Table.putAll, ih, Table.get?_put,
        ← Option.or_assoc]
      rfl

/-- Of several arguments that are variables of a name the last one stays. -/
theorem Machine.get?_putAll_namedArguments (name : String) (args : List Expr)
    (values : List Value) (table : Table Value) :
    (table.putAll (namedArguments (args.zip values))).get? name =
      (lastWhere (Expr.spells name) args values).or (table.get? name) := by
  induction args generalizing values table with
  | nil => rfl
  | cons arg args ih =>
    cases values with
    | nil => rfl
    | cons value values =>
      rw [lastWhere]
      cases arg with
      | var span id key =>
        have hnamed :
          namedArguments ((Expr.var span id key :: args).zip (value :: values)) =
            (key, value) :: namedArguments (args.zip values) := rfl
        rw [hnamed, Table.putAll, foldl_cons, ← Table.putAll, ih, Table.get?_put,
          ← Option.or_assoc]
        rfl
      | _ =>
        simp only [Expr.spells, Bool.false_eq_true, if_false, Option.or_none]
        exact ih values table

/-- Parameters read as the arguments at their positions, unless an argument is spelled
like a parameter at another one. -/
theorem parameterValue?_eq_getElem? {params : List String}
    (hparams : params.length = values.length)
    (hplaces : ∀ (i j : Nat) span id name, args[i]? = some (.var span id name) →
      params[j]? = some name → i = j) {i : Nat} {name : String}
    (hname : params[i]? = some name) (hlast : ∀ j > i, params[j]? ≠ some name) :
    parameterValue? params args values name = values[i]? := by
  have hpositional : lastWhere (· == name) params values = values[i]? := by
    refine lastWhere_of_last hparams hname (by simp) fun j hj other hother => ?_
    rw [beq_eq_false_iff_ne]
    rintro rfl
    exact hlast j hj hother
  unfold parameterValue?
  cases hspelled : lastWhere (Expr.spells name) args values with
  | none => rw [Option.none_or, hpositional]
  | some value =>
    obtain ⟨k, arg, harg, hspells, hvalue⟩ := exists_of_lastWhere hspelled
    cases arg with
    | var span id other =>
      obtain rfl : other = name := beq_iff_eq.1 hspells
      obtain rfl := hplaces k i span id other harg hname
      rw [hvalue]
      rfl
    | _ => cases hspells

namespace Machine

/-! ## The body begins -/

/-- The body of a function begins in a scope. -/
structure Begins (pending : List Pending) (function : Function) (scope : ScopeId)
    (m : Machine) : Prop where
  control : m.control = .flow .normal
  pending : ∃ below, m.pending = .seq function.decl.body scope :: .result function ::
    (below ++ pending)

/-- What is read at the start of a body if the frame holds the named arguments alone. -/
private theorem read_callFunction {ctx : Context} (hframes : ctx.discipline = .frames)
    {heap : Heap} {frames : Frames} {output name : String} {pending : List Pending}
    {function : Function} {id : NodeId} (hlength : values.length = function.arity)
    (hget : frames.get? name = lastWhere (Expr.spells name) args values)
    (hparam : name ∈ function.decl.params.map (·.node))
    (hdistance : ctx.resolution.distance? id = some 0) :
    ∃ value, parameterValue? (function.decl.params.map (·.node)) args values name =
      some value ∧ ctx.read (callFunction ⟨heap, frames, output⟩ pending function
        values).world name id heap.scopes.size = .ok value := by
  have hbindings : ((heap.makeChild function.closure
      (Table.putAll [] ((function.decl.params.map (·.node)).zip values))).2.bindings
        heap.scopes.size).get? name =
      lastWhere (· == name) (function.decl.params.map (·.node)) values := by
    rw [Heap.makeChild, Heap.bindings_makeScope_self, Table.get?_putAll_zip]
    exact Option.or_none
  have hchain := heap.chain_makeScope_self (heap.chain function.closure)
    (Table.putAll [] ((function.decl.params.map (·.node)).zip values))
  simp only [parameterValue?, Context.read, Context.frameValue?, hframes, callFunction,
    hget, hdistance, Heap.getAt, Heap.ancestor]
  cases lastWhere (Expr.spells name) args values with
  | some value => exact ⟨value, rfl, rfl⟩
  | none =>
    cases hpositional : lastWhere (· == name) (function.decl.params.map (·.node))
      values with
    | some value =>
      rw [hpositional] at hbindings
      refine ⟨value, rfl, ?_⟩
      simp only [Heap.makeChild] at hbindings ⊢
      simp only [hchain, List.getElem?_cons_zero, hbindings]
    | none =>
      rw [lastWhere_eq_none_iff (by rw [length_map, hlength]; rfl)] at hpositional
      exact absurd (hpositional name hparam) (by simp)

/-- For every call that has come to the body of a function, a method or an initializer:
its arguments were evaluated from left to right, and when the body began, a parameter,
read at a distance of none, was the last argument that is a plain variable spelled like
it, or else the argument at its last position. So parameters are their positional
arguments unless an argument is spelled like a parameter at another position, and two
that are handed on in each other's place are read the wrong way round. -/
theorem parameter_reads_as {ctx : Context} (hframes : ctx.discipline = .frames)
    {world : World} {pending : List Pending} {env : ScopeId} {span : Span} {id : NodeId}
    {callee : Expr} {args : List Expr} {m : Machine} {function : Function}
    (hrun :
      Underway ctx pending ⟨world, .eval (.call span id callee args) env, pending⟩ m)
    (hbody : InBody span pending function m) :
    ∃ call before after values scope begun,
      call.env = env ∧
      Underway ctx pending ⟨world, .eval (.call span id callee args) env, pending⟩
        (nextArgument ctx before (.leave (some span) :: pending) call [] args) ∧
      Arguments ctx env before args (.ok values) after ∧
      begun =
        complete ctx after (.leave (some span) :: pending) call (args.zip values) ∧
      Begins pending function scope begun ∧ Underway ctx pending begun m ∧
      (∀ name ∈ function.decl.params.map (·.node), ∀ node,
        ctx.resolution.distance? node = some 0 →
        ∃ value, parameterValue? (function.decl.params.map (·.node)) args values name =
            some value ∧
          ctx.read begun.world name node scope = .ok value) ∧
      ((∀ (i j : Nat) span id name, args[i]? = some (.var span id name) →
          (function.decl.params.map (·.node))[j]? = some name → i = j) →
        ∀ (i : Nat) name, (function.decl.params.map (·.node))[i]? = some name →
          (∀ j > i, (function.decl.params.map (·.node))[j]? ≠ some name) →
          ∀ node, ctx.resolution.distance? node = some 0 →
            ∃ value, values[i]? = some value ∧
              ctx.read begun.world name node scope = .ok value) ∧
      ∀ first second span₁ id₁ span₂ id₂, first ≠ second →
        function.decl.params.map (·.node) = [first, second] →
        args = [.var span₁ id₁ second, .var span₂ id₂ first] →
        ∀ node, ctx.resolution.distance? node = some 0 →
          ∃ value₁ value₂, values = [value₁, value₂] ∧
            ctx.read begun.world first node scope = .ok value₂ ∧
            ctx.read begun.world second node scope = .ok value₁ := by
  obtain ⟨world', call, hspan, henv, hstart, hm⟩ := hrun.exists_startCall hbody
  have hentered := hm.startCall_eq hspan hbody
  rw [hentered] at hstart hm
  obtain ⟨values, after, hargs, hm⟩ := Underway.exists_arguments hbody hm
  rw [henv] at hargs
  rw [reverse_nil, nil_append] at hm
  obtain ⟨harity, heap, below, hcomplete⟩ := Underway.complete_eq hbody hm
  have hvalues : (args.zip values).map (·.2) = values :=
    map_snd_zip (Nat.le_of_eq hargs.length_eq)
  have hlength : values.length = function.arity := by
    rw [← harity, length_zip, hargs.length_eq, Nat.min_self]
  have hparams : (function.decl.params.map (·.node)).length = values.length := by
    rw [length_map, hlength]
    rfl
  rw [hvalues] at hcomplete
  have hreads : ∀ name ∈ function.decl.params.map (·.node), ∀ node,
    ctx.resolution.distance? node = some 0 →
      ∃ value, parameterValue? (function.decl.params.map (·.node)) args values name =
        some value ∧ ctx.read (complete ctx after (.leave (some span) :: pending) call
          (args.zip values)).world name node heap.scopes.size = .ok value := by
    intro name hname node hnode
    rw [hcomplete]
    refine read_callFunction hframes hlength ?_ hname hnode
    rw [Frames.get?_addAll_of_topNames hargs.topNames_eq, get?_putAll_namedArguments]
    exact Option.or_none
  refine ⟨call, _, after, values, heap.scopes.size, _, henv, hstart, hargs, rfl, ?_, hm,
    hreads, ?_, ?_⟩
  · rw [hcomplete]
    exact ⟨rfl, below, rfl⟩
  · intro hplaces i name hname hlast node hnode
    obtain ⟨value, hvalue, hread⟩ := hreads name (mem_of_getElem? hname) node hnode
    rw [parameterValue?_eq_getElem? hparams hplaces hname hlast] at hvalue
    exact ⟨value, hvalue, hread⟩
  · rintro first second span₁ id₁ span₂ id₂ hne hnames rfl node hnode
    obtain ⟨value₁, value₂, rfl⟩ : ∃ value₁ value₂, values = [value₁, value₂] := by
      match values, hargs.length_eq with
      | [value₁, value₂], _ => exact ⟨value₁, value₂, rfl⟩
    obtain ⟨value, hvalue, hfirst⟩ := hreads first (by rw [hnames]; simp) node hnode
    obtain ⟨value', hvalue', hsecond⟩ := hreads second (by rw [hnames]; simp) node hnode
    have hswapped : value₂ = value := by
      simpa [parameterValue?, lastWhere, Expr.spells] using hvalue
    have hswapped' : value₁ = value' := by
      simpa [parameterValue?, lastWhere, Expr.spells, hne] using hvalue'
    exact ⟨value₁, value₂, rfl, hswapped ▸ hfirst, hswapped' ▸ hsecond⟩

/-- `func sub(a, b) = { return a - b; }` -/
def subDecl : FunctionDecl :=
  .mk ⟨"sub", ⟨5, 8⟩⟩ [⟨"a", ⟨9, 10⟩⟩, ⟨"b", ⟨12, 13⟩⟩]
    [.ret ⟨19, 32⟩
      (some (.binary ⟨26, 31⟩ (.var ⟨26, 27⟩ 0 "a") .sub (.var ⟨30, 31⟩ 1 "b")))]
      ⟨0, 34⟩

/-- The function as it was declared globally. -/
def sub : Function :=
  ⟨0, subDecl, globalScope, false⟩

/-- Both parameters are found in the scope of the body. -/
def subContext : Context :=
  ⟨.frames, ⟨.function, .value, 8⟩, [], .ofNotes [.distance 0 0, .distance 1 0],
    .silent⟩

/-- `sub(b, a)`, where `a` is 1 and `b` is 2. -/
def subStart : Machine :=
  ⟨⟨⟨#[⟨[], [("sub", .callable (.function sub)), ("a", .number 1), ("b", .number 2)]⟩],
    #[], 1⟩,
      Frames.empty.push globalFrame, ""⟩,
    .eval (.call ⟨0, 9⟩ 5 (.var ⟨0, 3⟩ 2 "sub") [.var ⟨4, 5⟩ 3 "b", .var ⟨7, 8⟩ 4 "a"])
      globalScope, []⟩

/-- The state of that call in which the body begins. -/
def subBegun : Machine :=
  subStart.run subContext 5

/-- The parameters `a` and `b` are read the wrong way round, so the difference is that
of `sub(a, b)`. -/
theorem parameter_reads_as_sub :
    Underway subContext [] subStart subBegun ∧ InBody ⟨0, 9⟩ [] sub subBegun ∧
      (∃ values scope begun, Begins [] sub scope begun ∧
        Underway subContext [] begun subBegun ∧
        ∃ value₁ value₂, values = [value₁, value₂] ∧
          subContext.read begun.world "a" 0 scope = .ok value₂ ∧
          subContext.read begun.world "b" 1 scope = .ok value₁) ∧
      (subStart.run subContext 20).outcome?.bind (·.toOption.join.bind Value.number?) =
        some (-1) := by
  have hrun : Underway subContext [] subStart subBegun := .run subContext 5 subStart
  have hbody : InBody ⟨0, 9⟩ [] sub subBegun := ⟨_, .call, suffix_cons _ _⟩
  obtain ⟨_, _, _, values, scope, begun, -, -, -, -, hbegins, hrest, -, -, hswapped⟩ :=
    parameter_reads_as rfl hrun hbody
  obtain ⟨value₁, value₂, hvalues, hfirst, -⟩ :=
    hswapped "a" "b" _ _ _ _ (by decide) rfl rfl 0 (by decide)
  obtain ⟨value₁', value₂', hvalues', -, hsecond⟩ :=
    hswapped "a" "b" _ _ _ _ (by decide) rfl rfl 1 (by decide)
  cases hvalues.symm.trans hvalues'
  exact ⟨hrun, hbody,
    ⟨values, scope, begun, hbegins, hrest, value₁, value₂, hvalues, hfirst, hsecond⟩, by
    decide +kernel⟩

end Machine

end Treewalk
