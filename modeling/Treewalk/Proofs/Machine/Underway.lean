import Treewalk.Proofs.Machine.Arguments
import Treewalk.Proofs.Machine.Writes

/-!
# Calls under way

`Machine.Delivers` is a run up to its outcome; a body that loops never gives one.
`Machine.Underway` is such a run as far as it has come, so it can be asked what has led
to a state in the middle of it. A call that has come to the body of a function has
evaluated its arguments first, from left to right and each to a value, and has not
failed.
-/

namespace Treewalk.Machine

open List

variable {base : List Pending} {other : Function} {done : List (Expr × Value)}
  {values : List Value}

/-- What is delivered is reached. -/
theorem Delivers.reaches {ctx : Context} {m final : Machine}
    (h : Delivers ctx base m final) : Reaches ctx m final := by
  induction h with
  | here _ _ => exact .start
  | later _ _ ih => exact .trans (.step .start) ih

/-- The states of a run before and when it hands its outcome to `base`. -/
inductive Underway (ctx : Context) (base : List Pending) (start : Machine) : Machine →
  Prop where
  | start : Underway ctx base start start
  | step {m : Machine} (h : Underway ctx base start m)
      (running : ¬(m.control.isOutcome = true ∧ m.pending = base)) : Underway ctx base
        start (step ctx m)

namespace Underway

variable {ctx : Context} {base top : List Pending} {start middle m : Machine}

private theorem trans (h : Underway ctx base start middle)
    (h' : Underway ctx base middle m) :
    Underway ctx base start m := by
  induction h' with
  | start => exact h
  | step _ running ih => exact .step ih running

private theorem next (h : Underway ctx base start m) :
    m = start ∨ Underway ctx base (Machine.step ctx start) m := by
  induction h with
  | start => exact .inl rfl
  | step _ running ih =>
    rcases ih with rfl | ih
    · exact .inr .start
    · exact .inr (.step ih running)

private theorem keeps {P : Machine → Prop}
    (hstep : ∀ m, P m → ¬(m.control.isOutcome = true ∧ m.pending = base) →
      P (Machine.step ctx m)) (h : Underway ctx base start m) (hstart : P start) :
    P m := by
  induction h with
  | start => exact hstart
  | step _ running ih => exact hstep _ ih running

private theorem suffix (h : Underway ctx base start m)
    (habove : base <:+ start.pending) : base <:+ m.pending :=
  h.keeps (P := fun m => base <:+ m.pending)
    (fun _ hm running => step_suffix hm running) habove

/-- A run with nothing below it. -/
theorem run (ctx : Context) (limit : Nat) (start : Machine) :
    Underway ctx [] start (start.run ctx limit) := by
  induction limit generalizing start with
  | zero => exact .start
  | succ limit ih =>
    unfold Machine.run
    split
    · exact .start
    · rename_i hrunning
      exact Underway.trans (.step .start fun hend => hrunning (isFinal_iff.2 hend))
        (ih _)

/-- A run that has come to its end has delivered. -/
theorem delivers (h : Underway ctx base start m) (outcome : m.control.isOutcome = true)
    (pending : m.pending = base) : Delivers ctx base start m := by
  have hjoin : ∀ {final}, Delivers ctx base m final →
      Delivers ctx base start final := by
    clear outcome pending
    induction h with
    | start => exact id
    | step _ running ih => exact fun hfinal => ih (.later running hfinal)
  exact hjoin (.here outcome pending)

private theorem through (h : Underway ctx base start m) (top : List Pending) :
    Underway ctx top start m ∨ ∃ middle, Delivers ctx top start middle ∧
      Underway ctx base middle m := by
  induction h with
  | start => exact .inl .start
  | @step m _ running ih =>
    rcases ih with habove | ⟨middle, hmiddle, hm⟩
    · by_cases hhere : m.control.isOutcome = true ∧ m.pending = top
      · exact .inr ⟨m, habove.delivers hhere.1 hhere.2, .step .start running⟩
      · exact .inl (.step habove hhere)
    · exact .inr ⟨middle, hmiddle, .step hm running⟩

end Underway

/-- A delivery to further entries is part of a run above fewer. -/
theorem Delivers.underway {ctx : Context} {top : List Pending} {m final : Machine}
    (h : Delivers ctx top m final) (htop : base <:+ top) (habove : top <:+ m.pending) :
    Underway ctx base m final := by
  induction h with
  | here _ _ => exact .start
  | @later m final running _ ih =>
    have hbelow : ¬(m.control.isOutcome = true ∧ m.pending = base) := by
      rintro ⟨outcome, pending⟩
      rw [pending] at habove
      exact running ⟨outcome, pending.trans (htop.eq_of_length_le habove.length_le)⟩
    exact Underway.trans (.step .start hbelow) (ih (step_suffix habove running))

/-! ## The end of a call -/

/-- Whether an entry hands the value of a call on, as it is or as the instance that was
made. -/
def closes : Pending → Bool
  | .leave _ => true
  | .construct _ => true
  | _ => false

/-- The call has its value or its error, or gets it from the host. -/
inductive Closing (base : List Pending) : Machine → Prop where
  | native {world : World} {name : String} {args : List Value} (above : List Pending)
      (habove : above.all closes = true) : Closing base
        ⟨world, .native name args, above ++ base⟩
  | value {world : World} {value : Value} (above : List Pending)
      (habove : above.all closes = true) :
      Closing base ⟨world, .value value, above ++ base⟩
  | fail {world : World} {error : RuntimeError} (above : List Pending)
      (habove : above.all closes = true) :
      Closing base ⟨world, .fail error, above ++ base⟩

namespace Closing

variable {ctx : Context} {base : List Pending} {m : Machine}

private theorem pending (h : Closing base m) :
    ∃ above, m.pending = above ++ base ∧ above.all closes = true := by
  cases h with
  | native above habove => exact ⟨above, rfl, habove⟩
  | value above habove => exact ⟨above, rfl, habove⟩
  | fail above habove => exact ⟨above, rfl, habove⟩

private theorem step (h : Closing base m)
    (running : ¬(m.control.isOutcome = true ∧ m.pending = base)) :
    Closing base (m.step ctx) := by
  cases h with
  | native above habove =>
    simp only [Machine.step, callNative]
    split
    · exact .value above habove
    · split
      · exact .value above habove
      · exact .fail above habove
  | value above habove =>
    cases above with
    | nil => exact absurd ⟨rfl, rfl⟩ running
    | cons entry above =>
      rw [all_cons, Bool.and_eq_true] at habove
      cases entry with
      | leave _ => exact .value above habove.2
      | construct _ => exact .value above habove.2
      | _ => cases habove.1
  | fail above habove =>
    cases above with
    | nil => exact absurd ⟨rfl, rfl⟩ running
    | cons entry above =>
      rw [all_cons, Bool.and_eq_true] at habove
      cases entry with
      | leave _ => exact .fail above habove.2
      | construct _ => exact .fail above habove.2
      | _ => cases habove.1

end Closing

/-! ## The body of a call -/

/-- What waits for the body of the function that a call has come to: the call, and where
the function sets up a new instance, that instance. -/
inductive Awaits (span : Span) : List Pending → Prop where
  | call : Awaits span [.leave (some span)]
  | setup (inst : Instance) : Awaits span [.construct inst, .leave (some span)]

/-- The call at `span` is in the body of a function. -/
def InBody (span : Span) (pending : List Pending) (function : Function) (m : Machine) :
    Prop :=
  ∃ below, Awaits span below ∧ .result function :: (below ++ pending) <:+ m.pending

private theorem eq_of_suffixes {left right pending : List Pending}
    (hleft : left <:+ pending) (hright : right <:+ pending)
    (hlength : left.length = right.length) : left = right :=
  (suffix_of_suffix_length_le hleft hright (Nat.le_of_eq hlength)).eq_of_length hlength

namespace InBody

variable {ctx : Context} {pending : List Pending} {span : Span} {function : Function}
  {start m : Machine}

variable (h : InBody span pending function m)

include h

private theorem not_closing (hrun : Underway ctx pending start m) :
    ¬Closing pending start := by
  intro hstart
  have hclosing : Closing pending m :=
    hrun.keeps (fun _ hclosing running => hclosing.step running) hstart
  obtain ⟨below, -, before, hpending⟩ := h
  obtain ⟨closed, hclosed, hcloses⟩ := hclosing.pending
  rw [← hpending, ← cons_append, ← append_assoc] at hclosed
  obtain rfl := append_cancel_right hclosed
  simp [closes] at hcloses

private theorem bottom :
    ∃ next, next :: .leave (some span) :: pending <:+ m.pending ∧
      (next = .result function ∨ ∃ inst, next = .construct inst) := by
  obtain ⟨below, hbelow, hsuffix⟩ := h
  cases hbelow with
  | call => exact ⟨_, hsuffix, .inl rfl⟩
  | setup inst => exact ⟨_, (suffix_cons _ _).trans hsuffix, .inr ⟨inst, rfl⟩⟩

private theorem pending_ne : m.pending ≠ pending := by
  intro hsame
  obtain ⟨next, hnext, -⟩ := h.bottom
  have hlength := hnext.length_le
  rw [hsame, length_cons, length_cons] at hlength
  omega

private theorem eq_leave {entry : Pending} (hentry : entry :: pending <:+ m.pending) :
    entry = .leave (some span) := by
  obtain ⟨next, hnext, -⟩ := h.bottom
  cases eq_of_suffixes hentry ((suffix_cons _ _).trans hnext) rfl
  rfl

private theorem eq_result_or_construct {entry : Pending}
    (hentry : entry :: .leave (some span) :: pending <:+ m.pending) :
    entry = .result function ∨ ∃ inst, entry = .construct inst := by
  obtain ⟨next, hnext, hcases⟩ := h.bottom
  cases eq_of_suffixes hentry hnext rfl
  exact hcases

private theorem function_eq (hother : InBody span pending other m) :
    other = function := by
  obtain ⟨below, hbelow, hsuffix⟩ := h
  obtain ⟨below', hbelow', hsuffix'⟩ := hother
  cases hbelow with
  | call =>
    cases hbelow' with
    | call =>
      cases eq_of_suffixes hsuffix hsuffix' rfl
      rfl
    | setup inst => cases eq_of_suffixes hsuffix ((suffix_cons _ _).trans hsuffix') rfl
  | setup inst =>
    cases hbelow' with
    | call => cases eq_of_suffixes ((suffix_cons _ _).trans hsuffix) hsuffix' rfl
    | setup inst' =>
      cases eq_of_suffixes hsuffix hsuffix' rfl
      rfl

end InBody

/-! ## The way to the body -/

section Stages

variable {ctx : Context} {pending : List Pending} {span : Span} {function : Function}
  {m : Machine} {env : ScopeId} {args : List Expr} {call : Call} {world : World}

/-- What is called, if it is a property or a method of the superclass, is found
first. -/
theorem Underway.exists_startCall {id : NodeId} {callee : Expr}
    (h : Underway ctx pending ⟨world, .eval (.call span id callee args) env, pending⟩ m)
    (hbody : InBody span pending function m) :
    ∃ world' call, call.span = span ∧ call.env = env ∧
      Underway ctx pending ⟨world, .eval (.call span id callee args) env, pending⟩
        (startCall ctx world' pending call args) ∧
      Underway ctx pending (startCall ctx world' pending call args) m := by
  rcases h.next with rfl | hnext
  · exact absurd rfl hbody.pending_ne
  have hfirst : Underway ctx pending
    ⟨world, .eval (.call span id callee args) env, pending⟩
      (evaluateCall ctx world pending env span id callee args) :=
    .step .start fun hend => nomatch hend.1
  change Underway ctx pending (evaluateCall ctx world pending env span id callee args)
    m at hnext
  cases callee with
  | get access object name =>
    rcases hnext.through (.receiver span access name.node args env :: pending) with
      habove | ⟨middle, hmiddle, hm⟩
    · cases hbody.eq_leave (habove.suffix (suffix_refl _))
    · have hobject := hmiddle.underway (suffix_cons _ _) (suffix_refl _)
      have hpending := hmiddle.pending
      have hcontrol := hmiddle.control_expr
      obtain ⟨world', control, _⟩ := middle
      obtain rfl := hpending
      rcases hm.next with rfl | hm
      · cases hbody.eq_leave (suffix_refl _)
      have hobject' := (hfirst.trans hobject).step fun hend => cons_ne_self _ _ hend.2
      rcases hcontrol with ⟨value, hvalue⟩ | ⟨error, herror⟩
      · obtain rfl : control = .value value := hvalue
        simp only [Machine.step, receive] at hm hobject'
        cases hproperty : world'.property value name.node with
        | error cause =>
          rw [hproperty] at hm
          exact absurd (.fail [] rfl) (hbody.not_closing hm)
        | ok property =>
          rw [hproperty] at hm hobject'
          exact ⟨_, _, rfl, rfl, hobject', hm⟩
      · obtain rfl : control = .fail error := herror
        exact absurd (.fail [] rfl) (hbody.not_closing hm)
  | super access method =>
    simp only [evaluateCall] at hnext hfirst
    cases hsuper : world.superMethod method.node env with
    | error cause =>
      rw [hsuper] at hnext
      exact absurd (.fail [] rfl) (hbody.not_closing hnext)
    | ok found =>
      rw [hsuper] at hnext hfirst
      exact ⟨_, _, rfl, rfl, hfirst, hnext⟩
  | var access calleeId name => exact ⟨_, _, rfl, rfl, hfirst, hnext⟩
  | _ => exact absurd (.fail [] rfl) (hbody.not_closing hnext)

/-- The frame of the call is entered. -/
theorem Underway.startCall_eq
    (h : Underway ctx pending (startCall ctx world pending call args) m)
    (hspan : call.span = span) (hbody : InBody span pending function m) :
    startCall ctx world pending call args =
      nextArgument ctx ⟨world.heap, world.frames.push call.name, world.output⟩
        (.leave (some span) :: pending) call [] args := by
  unfold startCall enter at h ⊢
  split at h
  · exact absurd (.fail [] rfl) (hbody.not_closing h)
  · rename_i hdepth
    rw [if_neg hdepth, hspan]

/-- The arguments are evaluated. -/
theorem Underway.exists_arguments (hbody : InBody span pending function m)
    (h : Underway ctx pending
      (nextArgument ctx world (.leave (some span) :: pending) call done args) m) :
    ∃ values world', Arguments ctx call.env world args (.ok values) world' ∧
      Underway ctx pending
        (complete ctx world' (.leave (some span) :: pending) call
          (done.reverse ++ args.zip values)) m := by
  induction args generalizing world done with
  | nil => exact ⟨[], world, .done world, by rwa [zip_nil_left, append_nil]⟩
  | cons expr rest ih =>
    have hstart : (⟨world, .eval expr call.env,
        .argument call done expr rest :: .leave (some span) :: pending⟩ : Machine) =
        under "" (.argument call done expr rest :: .leave (some span) :: pending)
          ⟨world, .eval expr call.env, []⟩ := by
      rw [under, World.after_empty, nil_append]
    rcases h.through (.argument call done expr rest :: .leave (some span) :: pending)
      with
      habove | ⟨middle, hmiddle, hm⟩
    · rcases hbody.eq_result_or_construct (habove.suffix (suffix_refl _))
        with hsame | ⟨_, hsame⟩ <;> cases hsame
    · obtain ⟨⟨world', control, _⟩, rfl, hfirst⟩ := hmiddle.of_under hstart
      obtain rfl := hfirst.pending
      rw [under, World.after_empty, nil_append] at hm
      rcases hm.next with rfl | hm
      · rcases hbody.eq_result_or_construct (suffix_refl _) with hsame | ⟨_, hsame⟩ <;>
          cases hsame
      rcases hfirst.control_expr with ⟨value, hvalue⟩ | ⟨error, herror⟩
      · obtain rfl : control = .value value := hvalue
        obtain ⟨values, world'', hothers, hm⟩ := ih hm
        refine ⟨value :: values, world'', .next hfirst hothers, ?_⟩
        rwa [reverse_cons, append_assoc] at hm
      · obtain rfl : control = .fail error := herror
        exact absurd (.fail [.leave (some span)] rfl) (hbody.not_closing hm)

private theorem Underway.function_eq (hbody : InBody span pending function m)
    {world : World} {below : List Pending} (hbelow : Awaits span below)
    (h : Underway ctx pending (callFunction world (below ++ pending) other values) m) :
    other = function := by
  have hcloses : below.all closes = true := by cases hbelow <;> rfl
  have hin : ∀ {m}, m.pending = .result other :: (below ++ pending) →
      InBody span pending other m :=
    fun hpending => ⟨below, hbelow, hpending ▸ suffix_refl _⟩
  rcases h.through (.result other :: (below ++ pending))
    with habove | ⟨middle, hmiddle, hm⟩
  · exact hbody.function_eq ⟨below, hbelow, habove.suffix (suffix_cons _ _)⟩
  · have hpending := hmiddle.pending
    have houtcome := hmiddle.outcome
    rcases hm.next with rfl | hm
    · exact hbody.function_eq (hin hpending)
    obtain ⟨world', control, _⟩ := middle
    obtain rfl := hpending
    cases control with
    | value value =>
      -- A body ends with no value of its own, and such a state would stay as it is.
      have hstays : m = ⟨world', .value value, .result other :: (below ++ pending)⟩ :=
        hm.keeps (P := (· = _)) (fun _ hsame _ => by rw [hsame]; rfl) rfl
      exact hbody.function_eq (hin (by rw [hstays]))
    | flow flow =>
      refine absurd ?_ (hbody.not_closing hm)
      simp only [Machine.step, proceed]
      cases resultOf world' other flow with
      | ok value => exact .value below hcloses
      | error cause => exact .fail below hcloses
    | fail error => exact absurd (.fail below hcloses) (hbody.not_closing hm)
    | _ => cases houtcome

private theorem Underway.invoke_eq (hbody : InBody span pending function m)
    {name : String} {callee : Value}
    (h : Underway ctx pending
      (invoke world (.leave (some span) :: pending) name callee values) m) :
    values.length = function.arity ∧
      ∃ heap below, invoke world (.leave (some span) :: pending) name callee values =
        callFunction ⟨heap, world.frames, world.output⟩ (below ++ pending) function
          values := by
  have hcloses : [Pending.leave (some span)].all closes = true := rfl
  unfold invoke at h ⊢
  cases hcallable : callee.callable? with
  | none =>
    rw [hcallable] at h
    exact absurd (.fail [.leave (some span)] hcloses) (hbody.not_closing h)
  | some callable =>
    simp only [hcallable] at h ⊢
    by_cases harity : values.length = callable.arity
    · rw [if_pos harity] at h ⊢
      cases callable with
      | function other =>
        obtain rfl := Underway.function_eq hbody .call h
        exact ⟨harity, world.heap, [.leave (some span)], rfl⟩
      | cls cls =>
        simp only [construct] at h ⊢
        cases hinit : cls.findMethod? Class.initializer with
        | none =>
          simp only [hinit] at h
          exact absurd (.value [.leave (some span)] hcloses) (hbody.not_closing h)
        | some init =>
          simp only [hinit] at h ⊢
          obtain rfl :=
            Underway.function_eq hbody (.setup (world.heap.makeInstance cls).1) h
          refine ⟨?_, _,
            [.construct (world.heap.makeInstance cls).1, .leave (some span)], rfl⟩
          rw [harity]
          simp only [Callable.arity, Class.arity, hinit]
          rfl
      | native native =>
        exact absurd (.native [.leave (some span)] hcloses) (hbody.not_closing h)
    · rw [if_neg harity] at h
      exact absurd (.fail [.leave (some span)] hcloses) (hbody.not_closing h)

/-- The frame of the call gets the arguments that are variables, and the body begins. -/
theorem Underway.complete_eq (hbody : InBody span pending function m)
    (h : Underway ctx pending
      (complete ctx world (.leave (some span) :: pending) call done) m) :
    done.length = function.arity ∧
      ∃ heap below, complete ctx world (.leave (some span) :: pending) call done =
        callFunction ⟨heap, world.frames.addAll (namedArguments done), world.output⟩
          (below ++ pending) function (done.map (·.2)) := by
  have hcloses : [Pending.leave (some span)].all closes = true := rfl
  rw [← length_map (·.2)]
  simp only [complete] at h ⊢
  cases hcallee : call.callee with
  | found callee =>
    simp only [hcallee] at h ⊢
    exact Underway.invoke_eq hbody h
  | native =>
    simp only [hcallee] at h
    exact absurd (.native [.leave (some span)] hcloses) (hbody.not_closing h)
  | named access calleeId =>
    simp only [hcallee] at h ⊢
    split at h
    · exact Underway.invoke_eq hbody h
    · exact absurd (.fail [.leave (some span)] hcloses) (hbody.not_closing h)

end Stages

end Treewalk.Machine
