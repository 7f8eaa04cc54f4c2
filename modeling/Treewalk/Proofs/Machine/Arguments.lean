import Treewalk.Proofs.Machine.FrameDiscipline
import Treewalk.Proofs.Machine.Under

/-!
# The arguments of a call

A call evaluates its arguments from left to right under its own frame, until one of them
fails. `Arguments` tells this evaluation by itself, without what waits for it: from
which world it starts, in which world it ends, and with which values or which error. A
call is then this evaluation and what the call makes of its result
(`Machine.delivers_nextArgument_iff`), so two calls that differ in what they call can be
compared at the moment when their arguments are known.
-/

namespace Treewalk

open List

variable {values : List Value} {done : List (Expr × Value)} {args : List Expr}

/-- In a frame without values a name has only the value that it is given. -/
theorem Frames.get?_addAll_of_topNames {frames : Frames} (h : frames.topNames = some [])
    (entries : List (String × Value)) (name : String) :
    (frames.addAll entries).get? name = (Table.putAll [] entries).get? name := by
  obtain ⟨list, depth, hdepth⟩ := frames
  cases list with
  | nil => cases h
  | cons frame rest =>
    obtain ⟨frameName, values⟩ := frame
    cases values with
    | nil => rfl
    | cons entry values => cases h

theorem Frames.get?_of_topNames {frames : Frames} (h : frames.topNames = some [])
    (name : String) :
    frames.get? name = none := by
  obtain ⟨list, depth, hdepth⟩ := frames
  cases list with
  | nil => rfl
  | cons frame rest =>
    obtain ⟨frameName, values⟩ := frame
    cases values with
    | nil => rfl
    | cons entry values => cases h

namespace Machine

variable {world : World}

/-! ## Evaluation -/

/-- An expression ends with a value or an error. -/
theorem Delivers.control_expr {ctx : Context} {expr : Expr} {env : ScopeId}
    {base : List Pending} {final : Machine}
    (h : Delivers ctx base ⟨world, .eval expr env, base⟩ final) :
    (∃ value, final.control = .value value) ∨ ∃ error, final.control = .fail error := by
  obtain ⟨above, -, -, hpending, -, -, -, -, hcontrol⟩ := h.quiet
  rw [h.pending, self_eq_append_left] at hpending
  have hoperand := hcontrol (by rw [hpending, leaves_nil])
  have houtcome := h.outcome
  cases hfinal : final.control with
  | value value => exact .inl ⟨value, rfl⟩
  | fail error => exact .inr ⟨error, rfl⟩
  | flow flow =>
    rw [hfinal] at hoperand
    cases hoperand
  | _ =>
    rw [hfinal] at houtcome
    cases houtcome

/-- The value of a variable is what is read. -/
theorem Delivers.read_of_var {ctx : Context} {world' : World} {span : Span}
    {id : NodeId} {name : String} {env : ScopeId} {value : Value}
    (h : Delivers ctx [] ⟨world, .eval (.var span id name) env, []⟩
      ⟨world', .value value, []⟩) :
    ctx.read world name id env = .ok value := by
  have hnext : Delivers ctx []
    (answer world [] (some span) (ctx.read world name id env))
      ⟨world', .value value, []⟩ := by
    cases h with
    | later _ run => exact run
  cases hread : ctx.read world name id env with
  | ok found =>
    rw [hread] at hnext
    cases hnext.eq_of_arrived rfl rfl
    rfl
  | error cause =>
    rw [hread] at hnext
    cases hnext.eq_of_arrived rfl rfl

/-- The evaluation of arguments: their values, or the error of the first one that
fails. -/
inductive Arguments (ctx : Context) (env : ScopeId) :
    World → List Expr → Except RuntimeError (List Value) → World → Prop where
  | done (world : World) : Arguments ctx env world [] (.ok []) world
  | stop {world world' : World} {expr : Expr} {rest : List Expr} {error : RuntimeError}
      (first : Delivers ctx [] ⟨world, .eval expr env, []⟩ ⟨world', .fail error, []⟩) :
      Arguments ctx env world (expr :: rest) (.error error) world'
  | next {world world' world'' : World} {expr : Expr} {rest : List Expr} {value : Value}
      {values : List Value}
      (first : Delivers ctx [] ⟨world, .eval expr env, []⟩ ⟨world', .value value, []⟩)
      (others : Arguments ctx env world' rest (.ok values) world'') :
      Arguments ctx env world (expr :: rest) (.ok (value :: values)) world''
  | stopLater {world world' world'' : World} {expr : Expr} {rest : List Expr}
      {value : Value} {error : RuntimeError}
      (first : Delivers ctx [] ⟨world, .eval expr env, []⟩ ⟨world', .value value, []⟩)
      (others : Arguments ctx env world' rest (.error error) world'') :
      Arguments ctx env world (expr :: rest) (.error error) world''

/-- What a call makes of the result of its arguments, after those that were done
before. -/
def settle (ctx : Context) (world : World) (pending : List Pending) (call : Call)
    (done : List (Expr × Value)) (args : List Expr) :
    Except RuntimeError (List Value) → Machine
  | .ok values => complete ctx world pending call (done.reverse ++ args.zip values)
  | .error error => ⟨world, .fail error, pending⟩

namespace Arguments

variable {ctx : Context} {env : ScopeId} {world world' : World} {args : List Expr}
  {result : Except RuntimeError (List Value)}

/-- There is a value for every argument. -/
theorem length_eq (h : Arguments ctx env world args (.ok values) world') :
    values.length = args.length := by
  generalize hresult : Except.ok values = result at h
  induction h generalizing values with
  | done _ =>
    cases hresult
    rfl
  | next _ _ ih =>
    cases hresult
    rw [length_cons, length_cons, ih rfl]
  | stop _ => cases hresult
  | stopLater _ _ _ => cases hresult

section

variable (h : Arguments ctx env world args result world')

include h

private theorem unique {result' : Except RuntimeError (List Value)} {world'' : World}
    (h' : Arguments ctx env world args result' world'') :
    result = result' ∧ world' = world'' := by
  induction h generalizing result' world'' with
  | done _ =>
    cases h'
    exact ⟨rfl, rfl⟩
  | stop first =>
    cases h' with
    | stop first' =>
      cases first.unique first'
      exact ⟨rfl, rfl⟩
    | next first' _ => cases first.unique first'
    | stopLater first' _ => cases first.unique first'
  | next first _ ih =>
    cases h' with
    | stop first' => cases first.unique first'
    | next first' others =>
      cases first.unique first'
      obtain ⟨hresult, hworld⟩ := ih others
      cases hresult
      exact ⟨rfl, hworld⟩
    | stopLater first' others =>
      cases first.unique first'
      cases (ih others).1
  | stopLater first _ ih =>
    cases h' with
    | stop first' => cases first.unique first'
    | next first' others =>
      cases first.unique first'
      cases (ih others).1
    | stopLater first' others =>
      cases first.unique first'
      exact ih others

private theorem retouched :
    Retouched SameNames world.frames.list world'.frames.list := by
  induction h with
  | done world => exact .refl SameNames.refl _
  | stop first => exact first.retouched_expr
  | next first _ ih => exact first.retouched_expr.trans (fun h h' => h.trans h') ih
  | stopLater first _ ih => exact first.retouched_expr.trans (fun h h' => h.trans h') ih

/-- What every argument keeps, the arguments keep, and what is true of the value of
every argument is true of all values. -/
theorem keeps {P : World → Prop} {Q : Expr → Value → Prop}
    (hkeeps : ∀ expr ∈ args, ∀ {world : World} {final : Machine}, P world →
      Delivers ctx [] ⟨world, .eval expr env, []⟩ final → P final.world)
    (hvalue : ∀ expr ∈ args, ∀ {world world' : World} {value : Value}, P world →
      Delivers ctx [] ⟨world, .eval expr env, []⟩ ⟨world', .value value, []⟩ →
      Q expr value) (hworld : P world) :
    P world' ∧ ∀ values, result = .ok values → ∀ arg ∈ args.zip values,
      Q arg.1 arg.2 := by
  induction h with
  | done _ => exact ⟨hworld, fun _ _ _ hmem => absurd hmem (by simp)⟩
  | stop first => exact ⟨hkeeps _ mem_cons_self hworld first, fun _ heq => by cases heq⟩
  | next first _ ih =>
    obtain ⟨hkept, hvalues⟩ :=
      ih (fun expr hexpr => hkeeps expr (mem_cons_of_mem _ hexpr))
      (fun expr hexpr => hvalue expr (mem_cons_of_mem _ hexpr))
      (hkeeps _ mem_cons_self hworld first)
    refine ⟨hkept, fun values heq => ?_⟩
    cases heq
    rw [zip_cons_cons]
    exact forall_mem_cons.2 ⟨hvalue _ mem_cons_self hworld first, hvalues _ rfl⟩
  | stopLater first _ ih =>
    obtain ⟨hkept, -⟩ := ih (fun expr hexpr => hkeeps expr (mem_cons_of_mem _ hexpr))
      (fun expr hexpr => hvalue expr (mem_cons_of_mem _ hexpr))
      (hkeeps _ mem_cons_self hworld first)
    exact ⟨hkept, fun _ heq => by cases heq⟩

end

section Frame

variable {heap : Heap} {frames : Frames} {output name : String}
  (h : Arguments ctx env ⟨heap, frames.push name, output⟩ args result world')

include h

/-- The frame of a call holds nothing while its arguments are evaluated. -/
theorem topNames_eq : world'.frames.topNames = some [] :=
  (Frames.topNames_eq_of_retouched h.retouched).trans rfl

/-- The frame of a call goes with its end. -/
theorem pop_frames (entries : List (String × Value)) :
    (world'.frames.addAll entries).pop = frames := by
  apply Frames.eq_of_list_eq
  have htop : Retouched AnyValues world'.frames.list
      (world'.frames.addAll entries).list :=
    Frames.retouched_modifyTop (fun _ => trivial) _
  rw [Frames.list_pop, htop.tail_eq, h.retouched.tail_eq]
  rfl

end Frame

end Arguments

/-! ## Calls -/

section Calls

variable {ctx : Context} {base pending : List Pending} {call : Call} {final : Machine}

private theorem delivers_argument_iff (hbase : base <:+ pending) {expr : Expr}
    {rest : List Expr} :
    Delivers ctx base ⟨world, .eval expr call.env, .argument call done expr rest ::
      pending⟩ final ↔
      (∃ value world',
        Delivers ctx [] ⟨world, .eval expr call.env, []⟩ ⟨world', .value value, []⟩ ∧
        Delivers ctx base
        (nextArgument ctx world' pending call ((expr, value) :: done) rest) final) ∨
      ∃ error world',
        Delivers ctx [] ⟨world, .eval expr call.env, []⟩ ⟨world', .fail error, []⟩ ∧
        Delivers ctx base ⟨world', .fail error, pending⟩ final := by
  have htop : base <:+ .argument call done expr rest :: pending :=
    hbase.trans (suffix_cons _ _)
  have hmore : Pending.argument call done expr rest :: pending ≠ base := by
    intro hsame
    have hlength := hbase.length_le
    rw [← hsame, length_cons] at hlength
    omega
  have hstart :
    (⟨world, .eval expr call.env, .argument call done expr rest :: pending⟩ : Machine) =
      under "" (.argument call done expr rest :: pending)
        ⟨world, .eval expr call.env, []⟩ := by
    rw [under, World.after_empty, nil_append]
  constructor
  · intro h
    obtain ⟨middle, hmiddle, hfinal⟩ := h.through htop (suffix_refl _)
    obtain ⟨⟨world', control, _⟩, rfl, hfirst⟩ := hmiddle.of_under hstart
    obtain rfl := hfirst.pending
    have hnext := hfinal.next hmore
    rw [under, World.after_empty, nil_append] at hnext
    rcases hfirst.control_expr with ⟨value, hvalue⟩ | ⟨error, herror⟩
    · obtain rfl : control = .value value := hvalue
      exact .inl ⟨value, world', hfirst, hnext⟩
    · obtain rfl : control = .fail error := herror
      exact .inr ⟨error, world', hfirst, hnext⟩
  · have hjoin : ∀ {middle : Machine},
      Delivers ctx [] ⟨world, .eval expr call.env, []⟩ middle →
        Delivers ctx base (step ctx
          (middle.under "" (.argument call done expr rest :: pending))) final →
        Delivers ctx base ⟨world, .eval expr call.env, .argument call done expr rest ::
          pending⟩ final := by
      intro middle hfirst hnext
      have hmiddle : Delivers ctx (.argument call done expr rest :: pending)
          ⟨world, .eval expr call.env, .argument call done expr rest :: pending⟩
          (middle.under "" (.argument call done expr rest :: pending)) := by
        rw [hstart]
        exact hfirst.under
      refine hmiddle.trans htop (suffix_refl _) (.later (fun hend => hmore ?_) hnext)
      rw [← hend.2, hmiddle.pending]
    rintro (⟨value, world', hfirst, hnext⟩ | ⟨error, world', hfirst, hnext⟩)
    · refine hjoin hfirst ?_
      rw [under, World.after_empty, nil_append]
      exact hnext
    · refine hjoin hfirst ?_
      rw [under, World.after_empty, nil_append]
      exact hnext

/-- A call is the evaluation of its arguments and what it makes of their values. -/
theorem delivers_nextArgument_iff (hbase : base <:+ pending) :
    Delivers ctx base (nextArgument ctx world pending call done args) final ↔
      ∃ result world', Arguments ctx call.env world args result world' ∧
        Delivers ctx base (settle ctx world' pending call done args result) final := by
  induction args generalizing world done with
  | nil =>
    constructor
    · intro h
      exact ⟨.ok [], world, .done world, by rwa [settle, zip_nil_left, append_nil]⟩
    · rintro ⟨result, world', hargs, h⟩
      cases hargs
      rwa [settle, zip_nil_left, append_nil] at h
  | cons expr rest ih =>
    have hzip : ∀ (value : Value) (values : List Value),
        ((expr, value) :: done).reverse ++ rest.zip values =
          done.reverse ++ (expr :: rest).zip (value :: values) := by
      intro value values
      simp
    rw [nextArgument, delivers_argument_iff hbase]
    constructor
    · rintro (⟨value, world', hfirst, hnext⟩ | ⟨error, world', hfirst, hnext⟩)
      · obtain ⟨result, world'', hothers, hfinal⟩ := ih.1 hnext
        cases result with
        | ok values =>
          rw [settle, hzip] at hfinal
          exact ⟨.ok (value :: values), world'', .next hfirst hothers, hfinal⟩
        | error error =>
          exact ⟨.error error, world'', .stopLater hfirst hothers, hfinal⟩
      · exact ⟨.error error, world', .stop hfirst, hnext⟩
    · rintro ⟨result, world'', hargs, hfinal⟩
      cases hargs with
      | stop first => exact .inr ⟨_, _, first, hfinal⟩
      | next first others =>
        rw [settle, ← hzip] at hfinal
        exact .inl ⟨_, _, first, ih.2 ⟨_, _, others, hfinal⟩⟩
      | stopLater first others => exact .inl ⟨_, _, first, ih.2 ⟨_, _, others, hfinal⟩⟩

/-- A call that is not nested too deep is what it makes of the values of its
arguments. -/
theorem delivers_startCall_iff_of_arguments {world' : World}
    (hdepth : world.frames.depth ≤ ctx.settings.maxCallDepth)
    (hargs : Arguments ctx call.env
      ⟨world.heap, world.frames.push call.name, world.output⟩ args (.ok values)
      world') :
    Delivers ctx pending (startCall ctx world pending call args) final ↔
      Delivers ctx pending
        (complete ctx world' (.leave (some call.span) :: pending) call
          (args.zip values)) final := by
  unfold startCall enter
  rw [if_neg (Nat.not_lt.2 hdepth), delivers_nextArgument_iff (suffix_cons _ _)]
  constructor
  · rintro ⟨result, world'', hargs', h⟩
    obtain ⟨rfl, rfl⟩ := hargs.unique hargs'
    exact h
  · intro h
    exact ⟨.ok values, world', hargs, h⟩

variable {world : World} {env : ScopeId} {span access : Span} {id calleeId : NodeId}
  {name : String} {args : List Expr}

theorem step_marked (h : ctx.resolution.isNativeCall id = true) :
    step ctx ⟨world, .eval (.call span id (.var access calleeId name) args) env,
      pending⟩ = startCall ctx world pending ⟨span, name, .native, env⟩ args := by
  simp only [step, evaluate, evaluateCall, h, if_true]

theorem step_unmarked (h : ctx.resolution.isNativeCall id = false) :
    step ctx ⟨world, .eval (.call span id (.var access calleeId name) args) env,
      pending⟩ = startCall ctx world pending ⟨span, name, .named access calleeId, env⟩
      args := by
  simp only [step, evaluate, evaluateCall, h, Bool.false_eq_true, if_false]

end Calls

end Machine

end Treewalk
