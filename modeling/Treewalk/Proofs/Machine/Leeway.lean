import Treewalk.Proofs.Machine.Writes

/-!
# Settings that leave more leeway

Two settings of a run can only stop it: the limit on nested calls, and the policy by
which the fault of a capability is an error. Nothing else looks at them, and nothing in
a run takes an error back. So a run goes through the same states under stricter settings
as under looser ones, until the stricter ones raise an error of their own, and that
error is then how the run ends.

* `Machine.step_eq_or_cut`, `Machine.run_eq_or_cut`: the same states, or an error that
  only the stricter settings raise.
* `Machine.depth_limit_cuts`: what this says of the limit on calls.
-/

namespace Treewalk

variable {m : Machine} {error : RuntimeError}

/-- The same context with other settings. -/
def Context.configured (ctx : Context) (settings : RunSettings) : Context :=
  { ctx with settings := settings }

/-- The same context with another limit on nested calls. -/
def Context.limited (ctx : Context) (depth : Nat) : Context :=
  ctx.configured { ctx.settings with maxCallDepth := depth }

namespace RunSettings

/-- The second settings stop no run that the first do not stop. -/
structure Loosened (strict loose : RunSettings) : Prop where
  breakPolicy : loose.breakPolicy = strict.breakPolicy
  depth : strict.maxCallDepth ≤ loose.maxCallDepth
  faults : strict.faultPolicy = .value → loose.faultPolicy = .value

/-- The errors that stricter settings raise where looser ones let a run go on. -/
def Cuts (strict loose : RunSettings) : ErrorKind → Prop
  | .stackOverflow => strict.maxCallDepth < loose.maxCallDepth
  | .nativeFault => strict.faultPolicy = .error ∧ loose.faultPolicy = .value
  | _ => False

private theorem Loosened.of_depth_le (settings : RunSettings) {low high : Nat}
    (h : low ≤ high) :
    Loosened { settings with maxCallDepth := low }
      { settings with maxCallDepth := high } where
  breakPolicy := rfl
  depth := h
  faults := id

/-- Settings that differ in the limit alone differ in overflows alone. -/
private theorem kind_of_cuts_depth {settings : RunSettings} {low high : Nat}
    {kind : ErrorKind}
    (h : Cuts { settings with maxCallDepth := low }
      { settings with maxCallDepth := high } kind) :
    kind = .stackOverflow := by
  cases kind with
  | stackOverflow => rfl
  | nativeFault =>
    obtain ⟨herror, hvalue⟩ := h
    rw [herror] at hvalue
    cases hvalue
  | _ => exact h.elim

end RunSettings

namespace Machine

/-- The machine hands on an error that only the stricter settings raise. -/
def IsCut (strict loose : RunSettings) (m : Machine) : Prop :=
  ∃ error, m.control = .fail error ∧ strict.Cuts loose error.cause.kind

private theorem IsCut.run {strict loose : RunSettings} (h : m.IsCut strict loose)
    (ctx : Context) (limit : Nat) :
    (m.run ctx limit).IsCut strict loose := by
  obtain ⟨error, herror, hcut⟩ := h
  obtain ⟨error', herror', hcause⟩ := cause_run_of_fail ctx limit herror
  exact ⟨error', herror', hcause ▸ hcut⟩

/-- It comes to the same under both settings, or to an error that only the stricter ones
raise. -/
def EqOrCut (strict loose : RunSettings) (ctx : Context) (act : Context → Machine) :
    Prop :=
  act (ctx.configured loose) = act (ctx.configured strict) ∨
    (act (ctx.configured strict)).IsCut strict loose

section

variable {strict loose : RunSettings} (h : strict.Loosened loose) (ctx : Context)
  (world : World) (pending : List Pending)

include h

/-! ## One transition -/

private theorem enter_eq_or_cut (name : String) (span : Option Span)
    (next : World → List Pending → Machine) :
    EqOrCut strict loose ctx fun ctx => enter ctx world pending name span next := by
  simp only [EqOrCut, enter]
  by_cases hstrict : world.frames.depth > (ctx.configured strict).settings.maxCallDepth
  · rw [if_pos hstrict]
    by_cases hsame : strict.maxCallDepth = loose.maxCallDepth
    · have hloose : world.frames.depth > (ctx.configured loose).settings.maxCallDepth :=
        hsame ▸ hstrict
      rw [if_pos hloose]
      refine .inl ?_
      simp only [Context.configured, hsame]
    · exact .inr ⟨_, rfl, Nat.lt_of_le_of_ne h.depth hsame⟩
  · have hloose : ¬world.frames.depth > (ctx.configured loose).settings.maxCallDepth :=
      fun hloose => hstrict (Nat.lt_of_le_of_lt h.depth hloose)
    rw [if_neg hstrict, if_neg hloose]
    exact .inl rfl

theorem startCall_eq_or_cut (call : Call) (args : List Expr) :
    EqOrCut strict loose ctx fun ctx => startCall ctx world pending call args :=
  -- the arguments are evaluated alike: only the entry looks at the settings
  enter_eq_or_cut h ctx world pending call.name _ _

theorem evaluateCall_eq_or_cut (env : ScopeId) (span : Span) (id : NodeId)
    (callee : Expr) (args : List Expr) :
    EqOrCut strict loose ctx fun ctx => evaluateCall ctx world pending env span id
      callee args := by
  cases callee with
  | var access calleeId name => exact startCall_eq_or_cut h ctx _ _ _ _
  | super access method =>
    simp only [EqOrCut, evaluateCall]
    split
    · exact .inl rfl
    · exact startCall_eq_or_cut h ctx _ _ _ _
  | _ => exact .inl rfl

private theorem evaluate_eq_or_cut (env : ScopeId) (expr : Expr) :
    EqOrCut strict loose ctx fun ctx => evaluate ctx world pending env expr := by
  cases expr with
  | call span id callee args => exact evaluateCall_eq_or_cut h ctx _ _ _ _ _ _ _
  | _ => exact .inl rfl

private theorem execute_configured (env : ScopeId) (stmt : Stmt) :
    execute (ctx.configured loose) world pending env stmt =
      execute (ctx.configured strict) world pending env stmt := by
  cases stmt with
  | brk span => simp only [execute, Context.configured, h.breakPolicy]
  | var span name init => cases init <;> rfl
  | ret span operand => cases operand <;> rfl
  | print span newline operand => cases operand <;> rfl
  | _ => rfl

private theorem receive_eq_or_cut (value : Value) (entry : Pending) :
    EqOrCut strict loose ctx fun ctx => receive ctx world pending value entry := by
  cases entry with
  | receiver span access name args env =>
    simp only [EqOrCut, receive]
    split
    · exact .inl rfl
    · exact startCall_eq_or_cut h ctx _ _ _ _
  | argument call done current rest => cases rest <;> exact .inl rfl
  | logical op right env => cases op <;> exact .inl rfl
  | _ => exact .inl rfl

private theorem proceed_eq_or_cut (flow : Flow) (entry : Pending) :
    EqOrCut strict loose ctx fun ctx => proceed ctx world pending flow entry := by
  cases entry with
  | enterMain =>
    simp only [EqOrCut, proceed]
    split
    · exact .inl rfl
    · exact enter_eq_or_cut h ctx _ _ _ _ _
  | _ => exact .inl rfl

theorem callNative_eq_or_cut (name : String) (args : List Value) :
    EqOrCut strict loose ctx fun ctx => callNative ctx world pending name args := by
  obtain ⟨heap, frames, output⟩ := world
  simp only [EqOrCut, callNative, Context.configured]
  cases Native.dispatch ctx.natives (ctx.host.answers heap.draw.1) name args with
  | ok value => exact .inl rfl
  | error fault =>
    cases hstrict : strict.faultPolicy with
    | value =>
      rw [h.faults hstrict]
      exact .inl rfl
    | error =>
      cases hloose : loose.faultPolicy with
      | value => exact .inr ⟨_, rfl, hstrict, hloose⟩
      | error => exact .inl rfl

/-- One transition is the same under looser settings, unless the stricter ones raise an
error. -/
theorem step_eq_or_cut (m : Machine) :
    m.step (ctx.configured loose) = m.step (ctx.configured strict) ∨
      (m.step (ctx.configured strict)).IsCut strict loose := by
  obtain ⟨world, control, pending⟩ := m
  cases control with
  | eval expr env => exact evaluate_eq_or_cut h ctx _ _ _ _
  | exec stmt env => exact .inl (execute_configured h ctx _ _ _ _)
  | native name args => exact callNative_eq_or_cut h ctx _ _ _ _
  | value value =>
    cases pending with
    | nil => exact .inl rfl
    | cons entry pending => exact receive_eq_or_cut h ctx _ _ _ _
  | flow flow =>
    cases pending with
    | nil => exact .inl rfl
    | cons entry pending => exact proceed_eq_or_cut h ctx _ _ _ _
  | fail error => cases pending <;> exact .inl rfl

/-! ## Whole runs -/

/-- A run is the same under looser settings, unless it fails with an error of the
stricter ones. -/
theorem run_eq_or_cut (limit : Nat) (m : Machine) :
    m.run (ctx.configured loose) limit = m.run (ctx.configured strict) limit ∨
      (m.run (ctx.configured strict) limit).IsCut strict loose := by
  induction limit generalizing m with
  | zero => exact .inl rfl
  | succ limit ih =>
    unfold run
    split
    · exact .inl rfl
    · rcases step_eq_or_cut h ctx m with hsame | hcut
      · rw [hsame]
        exact ih _
      · exact .inr (hcut.run _ _)

end

theorem control_of_outcome (h : m.outcome? = some (.error error)) :
    m.control = .fail error := by
  unfold outcome? at h
  split at h <;> cases h
  rfl

theorem outcome_eq_of_fail {outcome : Except RuntimeError (Option Value)}
    (herror : m.control = .fail error) (h : m.outcome? = some outcome) :
    outcome = .error error := by
  obtain ⟨world, control, pending⟩ := m
  obtain rfl : control = .fail error := herror
  cases pending with
  | nil => exact (Option.some.inj h).symm
  | cons entry pending => cases h

/-- An error that a run has come to is how the run ends. -/
theorem Reaches.exists_outcome_of_fail {ctx : Context} {start : Machine}
    (h : Reaches ctx start m) (herror : m.control = .fail error) :
    ∃ limit error', (start.run ctx limit).outcome? = some (.error error') ∧
      error'.cause = error.cause := by
  obtain ⟨limit, rfl⟩ := h.exists_run
  obtain ⟨more, error', houtcome, hcause⟩ := Machine.exists_outcome_of_fail ctx herror
  exact ⟨limit + more, error', by rw [run_add, houtcome], hcause⟩

/-! ## The limit on calls -/

/-- The limit on nested calls only cuts runs off. A run that ends within a limit, and
not in an overflow, goes through the same states under every higher one, so its result,
its output and all that it leaves behind are the same. And an overflow that is raised
anywhere in a run is how that run ends. -/
theorem depth_limit_cuts (ctx : Context) (start : Machine) :
    (∀ low high steps outcome, low ≤ high →
      (start.run (ctx.limited low) steps).outcome? = some outcome →
      (∀ error, outcome = .error error → error.cause.kind ≠ .stackOverflow) →
      ∀ more, start.run (ctx.limited high) (steps + more) =
        start.run (ctx.limited low) steps) ∧
    (∀ m error, Reaches ctx start m → m.control = .fail error →
      error.cause.kind = .stackOverflow →
      ∃ steps error', (start.run ctx steps).outcome? = some (.error error') ∧
        error'.cause = error.cause) := by
  refine ⟨?_, ?_⟩
  · intro low high steps outcome hle houtcome hkind more
    have hsame : start.run (ctx.limited high) steps =
        start.run (ctx.limited low) steps := by
      rcases run_eq_or_cut (.of_depth_le ctx.settings hle) ctx steps start
        with hsame | hcut
      · exact hsame
      · obtain ⟨error, herror, hcuts⟩ := hcut
        exact absurd (RunSettings.kind_of_cuts_depth hcuts)
          (hkind error (outcome_eq_of_fail herror houtcome))
    have hfinal : (start.run (ctx.limited high) steps).isFinal = true := by
      rw [hsame, isFinal, houtcome]
      rfl
    rw [run_eq_of_le (Nat.le_add_right steps more) hfinal, hsame]
  · intro m error hreaches herror _
    exact hreaches.exists_outcome_of_fail herror

/-- `clock(clock())` is about to be evaluated. -/
def nestedClock : Machine :=
  .ofExpr (.start [.clock]) (.call ⟨0, 14⟩ 3 (.var ⟨0, 5⟩ 2 "clock") [clockCall])

/-- The limit at a call in the argument of a call. Under a limit of two the run ends in
an error of its own, and so it does under a limit of nine; under a limit of one the
overflow of the inner call is how it ends. -/
theorem depth_limit_cuts_nestedClock :
    (nestedClock.run (clockContext.limited 2) 8).outcome? =
        some (.error ⟨.arity "clock" 0 1, some ⟨0, 14⟩⟩) ∧
      nestedClock.run (clockContext.limited 9) (8 + 4) =
        nestedClock.run (clockContext.limited 2) 8 ∧
      ∃ steps error, (nestedClock.run (clockContext.limited 1) steps).outcome? =
        some (.error error) ∧ error.cause = .stackOverflow 1 :=
  have hend : (nestedClock.run (clockContext.limited 2) 8).outcome? =
      some (.error ⟨.arity "clock" 0 1, some ⟨0, 14⟩⟩) := rfl
  ⟨hend,
    (depth_limit_cuts clockContext nestedClock).1 2 9 8 _ (by decide) hend
      (fun _ h => by cases h; decide) 4,
    (depth_limit_cuts (clockContext.limited 1) nestedClock).2 _
      ⟨.stackOverflow 1, some ⟨0, 7⟩⟩ (.step (.step .start)) rfl rfl⟩

end Machine

end Treewalk
