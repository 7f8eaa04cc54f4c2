import Treewalk.Proofs.Machine.Deliver

/-!
# Frames under expressions

An expression adds no name to the frame it is evaluated under. What adds names are
declarations and variables passed as arguments; declarations stand in bodies, bodies
belong to calls, and a call has a frame of its own from before its arguments to its end.
So as long as no call is under way (`leaves above = 0`) only parts of expressions are
pending and the only write is that of an assignment, which replaces a value that is
there. `Quiet` is this invariant.

Together with `Delivers.retouched` and a bound on the depth this is the discipline of
frames, `frames_discipline`.
-/

namespace Treewalk

open List

variable {pending : List Pending} {env : ScopeId} {inner : List Frame}

private theorem Frames.retouched_add {frames : Frames} {name : String}
    (h : (frames.get? name).isSome = true) (value : Value) :
    Retouched SameNames frames.list (frames.add name value).list := by
  obtain ⟨list, depth, hdepth⟩ := frames
  cases list with
  | nil => exact .none
  | cons frame rest =>
    obtain ⟨frameName, values⟩ := frame
    exact .top (Table.names_put_of_get? value h)

/-! ## Entries of expressions -/

/-- Whether an entry waits for a part of an expression, outside any call. -/
def Pending.isOperand : Pending → Bool
  | .assign .. => true
  | .binaryLeft .. => true
  | .binaryRight .. => true
  | .logical .. => true
  | .unary .. => true
  | .get .. => true
  | .setObject .. => true
  | .setField .. => true
  | .receiver .. => true
  | _ => false

/-- Whether the machine evaluates, or hands on what evaluation gives. -/
def Control.isOperand : Control → Bool
  | .eval .. => true
  | .value _ => true
  | .fail _ => true
  | _ => false

/-- Every entry waits for a part of an expression, or belongs to a call among the
entries. -/
def Calm : List Pending → Prop
  | [] => True
  | entry :: rest =>
    (entry.isOperand = true ∨ entry.isLeave = true ∨ 0 < leaves rest) ∧ Calm rest

private theorem Calm.append {new : List Pending} (hnew : Calm new) (h : Calm pending) :
    Calm (new ++ pending) := by
  induction new with
  | nil => exact h
  | cons entry rest ih =>
    refine ⟨?_, ih hnew.2⟩
    rcases hnew.1 with hoperand | hleave | hcall
    · exact .inl hoperand
    · exact .inr (.inl hleave)
    · refine .inr (.inr (Nat.lt_of_lt_of_le hcall ?_))
      exact Nat.le_trans (Nat.le_add_right _ _)
        (Nat.le_of_eq (leaves_append rest pending).symm)

/-- Above a call anything may be pending. -/
private theorem Calm.append_of_leaves (h : Calm pending) (hcall : 0 < leaves pending)
    (new : List Pending) :
    Calm (new ++ pending) := by
  induction new with
  | nil => exact h
  | cons entry rest ih =>
    refine ⟨.inr (.inr (Nat.lt_of_lt_of_le hcall ?_)), ih⟩
    exact Nat.le_trans (Nat.le_add_left _ _)
      (Nat.le_of_eq (leaves_append rest pending).symm)

theorem Calm.singleton_leave (span : Option Span) : Calm [.leave span] :=
  ⟨.inr (.inl rfl), trivial⟩

namespace Machine

variable {entry : Pending} {ctx : Context} {world : World} {base pending : List Pending}
  {frames : List Frame}

/-- An expression is being evaluated above `base`: no name has come to or gone from the
frame that it is evaluated under, and what is pending outside calls waits for its
parts. -/
def Quiet (base : List Pending) (frames : List Frame) (m : Machine) : Prop :=
  ∃ above inner touched, m.pending = above ++ base ∧
    m.world.frames.list = inner ++ touched ∧ inner.length = leaves above ∧
    Retouched SameNames frames touched ∧ Calm above ∧
    (leaves above = 0 → m.control.isOperand = true)

/-! ## One transition outside any call -/

namespace Quiet

variable {control : Control} {m : Machine}

private theorem same (h : control.isOperand = true) :
    Quiet base world.frames.list ⟨world, control, base⟩ :=
  ⟨[], [], world.frames.list, rfl, rfl, rfl, .refl SameNames.refl _, trivial,
    fun _ => h⟩

private theorem push (hentry : entry.isOperand = true) (hleave : entry.isLeave = false)
    (h : control.isOperand = true) :
    Quiet base world.frames.list ⟨world, control, entry :: base⟩ :=
  ⟨[entry], [], world.frames.list, rfl, rfl, by simp [leaves_cons_of_not_leave hleave],
    .refl SameNames.refl _, ⟨.inl hentry, trivial⟩, fun _ => h⟩

/-- What grows inside a call is quiet outside it. -/
theorem call {limit : Nat} {span : Option Span} {frame : Frame}
    (h : Grown limit (.leave span :: base) (frame :: frames) m) :
    Quiet base frames m := by
  obtain ⟨new, inner, touched, hpending, hframes, hlength, htouched, -⟩ := h
  cases htouched with
  | @top name old values _ _ =>
    refine ⟨new ++ [.leave span], inner ++ [⟨name, values⟩], frames, ?_, ?_, ?_,
      .refl SameNames.refl _, ?_, ?_⟩
    · rw [hpending, append_assoc, singleton_append]
    · rw [hframes, append_assoc, singleton_append]
    · rw [leaves_append, leaves_cons_leave, length_append, hlength]
      rfl
    · exact (Calm.singleton_leave span).append_of_leaves
        (by simp [leaves_cons_leave]) new
    · rw [leaves_append, leaves_cons_leave]
      intro hzero
      omega

end Quiet

theorem quiet_answer (span : Option Span) (result : Except Cause Value) :
    Quiet pending world.frames.list (answer world pending span result) := by
  cases result <;> exact .same rfl

private theorem quiet_startCall (call : Call) (args : List Expr) :
    Quiet pending world.frames.list (startCall ctx world pending call args) := by
  unfold startCall enter
  split
  · exact .same rfl
  · exact .call
      (@grown_nextArgument ctx ⟨world.heap, world.frames.push call.name, world.output⟩ _
        call [] args)

theorem quiet_evaluateCall (env : ScopeId) (span : Span) (id : NodeId) (callee : Expr)
    (args : List Expr) :
    Quiet pending world.frames.list
      (evaluateCall ctx world pending env span id callee args) := by
  cases callee with
  | get access object name => exact .push rfl rfl rfl
  | super access method =>
    simp only [evaluateCall]
    split
    · exact .same rfl
    · exact quiet_startCall _ args
  | var access calleeId name => exact quiet_startCall _ args
  | _ => exact .same rfl

theorem quiet_evaluate (env : ScopeId) (expr : Expr) :
    Quiet pending world.frames.list (evaluate ctx world pending env expr) := by
  cases expr with
  | call span id callee args => exact quiet_evaluateCall env span id callee args
  | grouping span inner => exact .same rfl
  | literal span value => exact .same rfl
  | super span method =>
    simp only [evaluate]
    split <;> exact .same rfl
  | this span =>
    simp only [evaluate]
    split <;> exact .same rfl
  | var span id name => exact quiet_answer _ _
  | _ => exact .push rfl rfl rfl

/-- An assignment writes to the frame only where the name is there. -/
private theorem get?_of_slots {name : String} {id : NodeId} {slots : Slots}
    (h : ctx.slots world name id env = .ok slots) (hframe : slots.frame = true) :
    (world.frames.get? name).isSome = true := by
  have hvalue : (ctx.frameValue? world name).isSome = true := by
    unfold Context.slots at h
    simp only at h
    split at h
    · cases h
      exact hframe
    · split at h
      · assumption
      · cases h
  unfold Context.frameValue? at hvalue
  split at hvalue
  · exact hvalue
  · cases hvalue

private theorem quiet_receive (value : Value) (h : entry.isOperand = true) :
    Quiet pending world.frames.list (receive ctx world pending value entry) := by
  cases entry with
  | assign span id name env =>
    simp only [receive]
    split
    · rename_i slots hslots
      refine ⟨[], [], _, rfl, rfl, rfl, ?_, trivial, fun _ => rfl⟩
      show Retouched SameNames _ (world.assign slots name value).frames.list
      rw [frames_assign]
      split
      · rename_i hframe
        exact Frames.retouched_add (get?_of_slots hslots hframe) value
      · exact .refl SameNames.refl _
    · exact .same rfl
  | binaryLeft span op right env => exact .push rfl rfl rfl
  | binaryRight span left op => exact quiet_answer _ _
  | logical op right env =>
    cases op <;> (simp only [receive]; split <;> exact .same rfl)
  | unary span op => exact quiet_answer _ _
  | get span name =>
    simp only [receive]
    split
    · exact .same rfl
    · rw [← frames_take]
      exact .same rfl
  | setObject span name operand env =>
    cases value <;> first | exact .same rfl | exact .push rfl rfl rfl
  | setField inst name => exact @Quiet.same ⟨_, world.frames, _⟩ _ _ rfl
  | receiver span access name args env =>
    simp only [receive]
    split
    · exact .same rfl
    · rw [← frames_take]
      exact quiet_startCall _ args
  | _ => cases h

theorem quiet_unwind (error : RuntimeError) (h : entry.isOperand = true) :
    Quiet pending world.frames.list (unwind world pending error entry) := by
  cases entry <;> first | exact .same rfl | cases h

/-! ## The evaluation of an expression -/

namespace Quiet

variable {above : List Pending} {touched : List Frame} {m : Machine}

private theorem grown (hcalm : Calm above) (hzero : leaves above = 0)
    (htouched : Retouched SameNames frames touched)
    (h : Quiet (above ++ base) touched m) : Quiet base frames m := by
  obtain ⟨new, inner, touched', hpending, hframes, hlength, htouched', hnew,
    hcontrol⟩ := h
  refine ⟨new ++ above, inner, touched', ?_, hframes, ?_,
    htouched.trans .trans htouched', hnew.append hcalm, ?_⟩
  · rw [hpending, append_assoc]
  · rw [leaves_append, hlength, hzero, Nat.add_zero]
  · rw [leaves_append, hzero, Nat.add_zero]
    exact hcontrol

private theorem grown_call {limit : Nat} (hcalm : Calm above) (hcall : 0 < leaves above)
    (hlength : inner.length = leaves above)
    (htouched : Retouched SameNames frames touched)
    (h : Grown limit (above ++ base) (inner ++ touched) m) : Quiet base frames m := by
  obtain ⟨new, inner', touched', hpending, hframes, hlength', htouched', -⟩ := h
  obtain ⟨kept, rest, rfl, hkept, -, hrest⟩ := htouched'.append fun _ => trivial
  have hne : inner ≠ [] := by
    intro hnil
    rw [hnil] at hlength
    exact absurd hlength.symm (Nat.ne_of_gt hcall)
  rw [hrest hne] at hframes
  refine ⟨new ++ above, inner' ++ kept, touched, ?_, ?_, ?_, htouched,
    hcalm.append_of_leaves hcall new, ?_⟩
  · rw [hpending, append_assoc]
  · rw [hframes, append_assoc]
  · rw [length_append, leaves_append, hlength', hkept, hlength]
  · rw [leaves_append]
    intro hzero
    omega

/-- One transition where no call is under way: the first entry, if it is asked, waits
for a part of the expression. -/
private theorem step_outside (hpending : m.pending = above ++ base)
    (hframes : m.world.frames.list = touched)
    (htouched : Retouched SameNames frames touched) (hcalm : Calm above)
    (hzero : leaves above = 0) (hcontrol : m.control.isOperand = true)
    (running : ¬(m.control.isOutcome = true ∧ m.pending = base)) :
    Quiet base frames (step ctx m) := by
  obtain ⟨world, control, pending⟩ := m
  dsimp only at hpending hframes hcontrol running
  subst hpending hframes
  have hfirst : ∀ {entry rest}, above = entry :: rest →
      entry.isOperand = true ∧ Calm rest ∧ leaves rest = 0 := by
    rintro entry rest rfl
    have hrest : leaves rest = 0 ∧ entry.isLeave = false := by
      rcases entry.leave_or with ⟨span, rfl⟩ | hentry
      · rw [leaves_cons_leave] at hzero
        cases hzero
      · exact ⟨(leaves_cons_of_not_leave hentry rest).symm.trans hzero, hentry⟩
    rcases hcalm.1 with hoperand | hleave | hcall
    · exact ⟨hoperand, hcalm.2, hrest.1⟩
    · rw [hrest.2] at hleave
      cases hleave
    · omega
  cases control with
  | eval expr env => exact grown hcalm hzero htouched (quiet_evaluate env expr)
  | value value =>
    cases above with
    | nil => exact absurd ⟨rfl, rfl⟩ running
    | cons entry rest =>
      obtain ⟨hoperand, hcalm, hzero⟩ := hfirst rfl
      exact grown hcalm hzero htouched (quiet_receive value hoperand)
  | fail error =>
    cases above with
    | nil => exact absurd ⟨rfl, rfl⟩ running
    | cons entry rest =>
      obtain ⟨hoperand, hcalm, hzero⟩ := hfirst rfl
      exact grown hcalm hzero htouched (quiet_unwind error hoperand)
  | _ => cases hcontrol

/-- One transition while a call is under way: the frame that the expression is evaluated
under is below the top one and is not written to. -/
private theorem step_inside (hpending : m.pending = above ++ base)
    (hframes : m.world.frames.list = inner ++ touched)
    (hlength : inner.length = leaves above)
    (htouched : Retouched SameNames frames touched) (hcalm : Calm above)
    (hcall : 0 < leaves above) : Quiet base frames (step ctx m) := by
  cases step_moves ctx m with
  | starts _ leads =>
    have grown := leads.grown
    rw [hpending, hframes] at grown
    exact grown_call hcalm hcall hlength htouched grown
  | @hands entry rest _ first stays leads =>
    have grown := leads.grown
    cases above with
    | nil => exact absurd hcall (Nat.lt_irrefl 0)
    | cons entry' above =>
      rw [hpending, cons_append, List.cons.injEq] at first
      obtain ⟨rfl, rfl⟩ := first
      rw [leaves_cons_of_not_leave stays] at hlength hcall
      rw [hframes] at grown
      exact grown_call hcalm.2 hcall hlength htouched grown
  | @leaves span rest control _ first popped handed =>
    cases above with
    | nil => exact absurd hcall (Nat.lt_irrefl 0)
    | cons entry' above =>
      rw [hpending, cons_append, List.cons.injEq] at first
      obtain ⟨rfl, rfl⟩ := first
      rw [leaves_cons_leave] at hlength
      cases inner with
      | nil => cases hlength
      | cons frame inner =>
        rw [popped]
        refine ⟨above, inner, touched, rfl, ?_, Nat.succ.inj hlength, htouched, hcalm.2,
          fun _ => ?_⟩
        · rw [Frames.list_pop, hframes]
          rfl
        · obtain ⟨value, rfl⟩ | ⟨error, rfl⟩ := handed <;> rfl
  | rests same =>
    rw [same]
    refine ⟨above, inner, touched, hpending, hframes, hlength, htouched, hcalm, ?_⟩
    intro hzero
    omega

/-- A transition before the end of the evaluation keeps it quiet. -/
private theorem step {m : Machine} (h : Quiet base frames m)
    (running : ¬(m.control.isOutcome = true ∧ m.pending = base)) :
    Quiet base frames (step ctx m) := by
  obtain ⟨above, inner, touched, hpending, hframes, hlength, htouched, hcalm,
    hcontrol⟩ := h
  rcases Nat.eq_zero_or_pos (leaves above) with hzero | hcall
  · rw [hzero, length_eq_zero_iff] at hlength
    rw [hlength, nil_append] at hframes
    exact step_outside hpending hframes htouched hcalm hzero (hcontrol hzero) running
  · exact step_inside hpending hframes hlength htouched hcalm hcall

theorem retouched (h : Quiet base frames m) (hbase : m.pending = base) :
    Retouched SameNames frames m.world.frames.list := by
  obtain ⟨above, inner, touched, hpending, hframes, hlength, htouched, -, -⟩ := h
  rw [hbase, self_eq_append_left] at hpending
  rw [hpending, leaves_nil, length_eq_zero_iff] at hlength
  rw [hframes, hlength]
  exact htouched

end Quiet

theorem Delivers.quiet {expr : Expr} {final : Machine}
    (h : Delivers ctx base ⟨world, .eval expr env, base⟩ final) :
    Quiet base world.frames.list final :=
  h.keeps (fun _ hquiet running => hquiet.step running) (.same rfl)

/-- When an expression is evaluated, the frames are those from before, except that names
of the top one may have other values. -/
theorem Delivers.retouched_expr {expr : Expr} {final : Machine}
    (h : Delivers ctx base ⟨world, .eval expr env, base⟩ final) :
    Retouched SameNames world.frames.list final.world.frames.list :=
  h.quiet.retouched h.pending

end Machine

end Treewalk
