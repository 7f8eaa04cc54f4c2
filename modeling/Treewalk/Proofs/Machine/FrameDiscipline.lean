import Treewalk.Proofs.Machine.Quiet
import Treewalk.Session

/-!
# The discipline of frames

A call has a frame from before its arguments to its end, however it ends, and no other
construct takes part in the stack. So evaluating an expression or executing a statement
gives the frames back as they were, up to the values of the top one; an expression adds
no name to the top one; and a call by a plain name or through `super`, whose own frame
is the top one all the while, leaves the caller's frame as it was. The depth never
passes the limit by more than the frame of the top-level code.

`Machine.frames_discipline` states all of this.
-/

namespace Treewalk

variable {before after : Frames} {args : List Expr}

/-- As many frames as before, of the same names, and the same below the top one. -/
structure Frames.Kept (before after : Frames) : Prop where
  depth : after.depth = before.depth
  names : after.names = before.names
  below : after.list.tail = before.list.tail

theorem Frames.Kept.of_retouched {R : Table Value → Table Value → Prop}
    (h : Retouched R before.list after.list) :
    before.Kept after where
  depth := by rw [before.depth_eq, after.depth_eq, h.length_eq]
  names := h.names_eq
  below := h.tail_eq

theorem Frames.eq_of_list_eq (h : after.list = before.list) : after = before := by
  obtain ⟨list, depth, hdepth⟩ := before
  obtain ⟨list', depth', hdepth'⟩ := after
  subst hdepth hdepth' h
  rfl

/-- The names in the top frame. -/
def Frames.topNames (frames : Frames) : Option (List String) :=
  frames.top?.map fun frame => Table.names frame.values

theorem Frames.topNames_eq_of_retouched
    (h : Retouched SameNames before.list after.list) :
    after.topNames = before.topNames := by
  obtain ⟨list, depth, hdepth⟩ := before
  obtain ⟨list', depth', hdepth'⟩ := after
  dsimp only at h
  cases h with
  | none => rfl
  | top hnames => exact congrArg some hnames

namespace Machine

variable {ctx : Context} {base : List Pending} {m final : Machine}

/-! ## Calls -/

private theorem Delivers.frames_of_call {span : Option Span} {name : String}
    {frames : Frames}
    (hm : Grown ctx.settings.maxCallDepth (.leave span :: base)
      (frames.push name).list m) (h : Delivers ctx base m final) :
    final.world.frames = frames := by
  have habove : .leave span :: base <:+ m.pending := by
    obtain ⟨new, -, -, hpending, -⟩ := hm
    rw [hpending]
    exact List.suffix_append _ _
  obtain ⟨middle, hmiddle, hfinal⟩ := h.split habove
  have hpop := hfinal.leave hmiddle.outcome hmiddle.pending
  apply Frames.eq_of_list_eq
  rw [hpop, Frames.list_pop, (hmiddle.retouched hm).tail_eq]
  rfl

private theorem Delivers.frames_of_startCall {world : World} {call : Call}
    (h : Delivers ctx base (startCall ctx world base call args) final) :
    final.world.frames = world.frames := by
  unfold startCall enter at h
  split at h
  · cases h with
    | here _ _ => rfl
    | later running _ => exact absurd ⟨rfl, rfl⟩ running
  · exact h.frames_of_call (grown_nextArgument call [] args)

/-- A call by a plain name or through `super` gives back the frames as they were. -/
private theorem Delivers.frames_of_named_call {world : World} {span : Span}
    {id : NodeId} {callee : Expr} {env : ScopeId}
    (hcallee : (∃ access calleeId name, callee = .var access calleeId name) ∨
      ∃ access method, callee = .super access method)
    (h : Delivers ctx base ⟨world, .eval (.call span id callee args) env, base⟩ final) :
    final.world.frames = world.frames := by
  cases h with
  | here outcome _ => cases outcome
  | later _ h =>
    rcases hcallee with ⟨access, calleeId, name, rfl⟩ | ⟨access, method, rfl⟩
    · exact h.frames_of_startCall
    · simp only [step, evaluate, evaluateCall] at h
      split at h
      · cases h with
        | here _ _ => rfl
        | later running _ => exact absurd ⟨rfl, rfl⟩ running
      · rw [h.frames_of_startCall, frames_bind]

/-! ## The depth of a run -/

/-- The states of a run. -/
inductive Reaches (ctx : Context) (start : Machine) : Machine → Prop where
  | start : Reaches ctx start start
  | step {m : Machine} (h : Reaches ctx start m) : Reaches ctx start (step ctx m)

/-- One transition does not pass the limit. -/
private theorem depth_step_le
    (h : m.world.frames.depth ≤ ctx.settings.maxCallDepth + 1) :
    (step ctx m).world.frames.depth ≤ ctx.settings.maxCallDepth + 1 := by
  rw [Frames.depth_eq] at h ⊢
  cases step_moves ctx m with
  | starts _ leads =>
    obtain ⟨-, -, -, -, -, -, -, hbounded⟩ := leads.grown
    omega
  | hands _ _ _ leads =>
    obtain ⟨-, -, -, -, -, -, -, hbounded⟩ := leads.grown
    omega
  | leaves _ _ popped _ =>
    rw [popped, Frames.list_pop, List.length_tail]
    omega
  | rests same =>
    rw [same]
    exact h

private theorem depth_start (heap : Heap) (task : Task) :
    (task.machine heap).world.frames.depth = 1 := by
  cases task with
  | evaluate expr => rfl
  | script program => rfl
  | run program =>
    simp only [Task.machine, ofProgram]
    split <;> rfl

private theorem depth_le_of_reaches {heap : Heap} {task : Task}
    (h : Reaches ctx (task.machine heap) m) :
    m.world.frames.depth ≤ ctx.settings.maxCallDepth + 1 := by
  induction h with
  | start =>
    rw [depth_start]
    omega
  | step _ ih => exact depth_step_le ih

/-! ## The discipline -/

/-- Evaluating or executing anything, to whatever end, keeps the frames up to the values
of the top one; an expression keeps the names in the top one; a call by a plain name or
through `super` keeps all of them. No state of a run has more than one frame above the
limit, and a call that would enter one above it fails and changes nothing. -/
theorem frames_discipline (ctx : Context) :
    (∀ world control base final, Delivers ctx base ⟨world, control, base⟩ final →
      world.frames.Kept final.world.frames) ∧
    (∀ world expr env base final,
      Delivers ctx base ⟨world, .eval expr env, base⟩ final →
      final.world.frames.topNames = world.frames.topNames) ∧
    (∀ world span id callee args env base final,
      ((∃ access calleeId name, callee = Expr.var access calleeId name) ∨
        ∃ access method, callee = Expr.super access method) →
      Delivers ctx base ⟨world, .eval (.call span id callee args) env, base⟩ final →
      final.world.frames = world.frames) ∧
    (∀ (heap : Heap) (task : Task) m, Reaches ctx (task.machine heap) m →
      m.world.frames.depth ≤ ctx.settings.maxCallDepth + 1) ∧
    (∀ world pending name span next, world.frames.depth > ctx.settings.maxCallDepth →
      enter ctx world pending name span next =
        ⟨world, .fail ⟨.stackOverflow ctx.settings.maxCallDepth, span⟩, pending⟩) := by
  refine ⟨?_, ?_, ?_, ?_, ?_⟩
  · intro world control base final h
    exact .of_retouched (h.retouched (.same world))
  · intro world expr env base final h
    exact Frames.topNames_eq_of_retouched h.retouched_expr
  · intro world span id callee args env base final hcallee h
    exact h.frames_of_named_call hcallee
  · intro heap task m h
    exact depth_le_of_reaches h
  · intro world pending name span next h
    unfold enter
    rw [if_pos h]
    rfl

/-- A host whose clock goes on from call to call. -/
def tickingHost : Host :=
  ⟨fun stamp => { Answers.none with clock := .ofNat stamp }⟩

/-- One capability, and calls nested at most once. -/
def clockContext : Context :=
  ⟨.frames, ⟨.function, .value, 1⟩, [.clock], .empty, tickingHost⟩

/-- Top-level code that has declared `x`. -/
def clockWorld : World :=
  ⟨(Heap.start [.clock]).define globalScope "x" .nothing,
    (Frames.empty.push globalFrame).add "x" .nothing, ""⟩

/-- `clock()` -/
def clockCall : Expr :=
  .call ⟨0, 7⟩ 1 (.var ⟨0, 5⟩ 0 "clock") []

/-- The state in which the call is about to be evaluated. -/
def clockStart : Machine :=
  ⟨clockWorld, .eval clockCall globalScope, []⟩

private theorem clockCall_delivers :
    Delivers clockContext [] clockStart (clockStart.run clockContext 3) := by
  refine .later (fun h => nomatch h.1) ?_
  refine .later (fun h => nomatch h.1) ?_
  refine .later (fun h => nomatch h.2) ?_
  exact .here rfl rfl

/-- The discipline at the call of a capability, and at the limit. -/
theorem frames_discipline_clock :
    Delivers clockContext [] clockStart (clockStart.run clockContext 3) ∧
      clockWorld.frames.Kept (clockStart.run clockContext 3).world.frames ∧
      (clockStart.run clockContext 3).world.frames.topNames = some ["x"] ∧
      (clockStart.run clockContext 3).world.frames = clockWorld.frames ∧
      (ofExpr clockWorld.heap clockCall).world.frames.depth ≤ 2 ∧
      enter clockContext ⟨clockWorld.heap, clockWorld.frames.push "clock", ""⟩ []
          "clock" none (fun world pending => ⟨world, .flow .normal, pending⟩) =
        ⟨⟨clockWorld.heap, clockWorld.frames.push "clock", ""⟩,
          .fail ⟨.stackOverflow 1, none⟩, []⟩ := by
  obtain ⟨kept, names, call, depth, limit⟩ := frames_discipline clockContext
  refine ⟨clockCall_delivers, kept _ _ _ _ clockCall_delivers, ?_, ?_, ?_, ?_⟩
  · exact (names _ _ _ _ _ clockCall_delivers).trans rfl
  · exact call _ _ _ _ _ _ _ _ (.inl ⟨_, _, _, rfl⟩) clockCall_delivers
  · exact depth clockWorld.heap (.evaluate clockCall) _ .start
  · exact limit _ _ _ _ _ (by decide)

end Machine

end Treewalk
