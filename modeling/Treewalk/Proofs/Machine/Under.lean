import Treewalk.Proofs.Machine.Deliver
import Treewalk.Proofs.Machine.Lockstep

/-!
# Runs on top of other work

A run does not look at what was printed before it, nor at the entries below its own; it
adds to the one and stops at the other. So a run with nothing pending below is the run
with entries below it and output before it, up to the moment when it hands its outcome
to them. `Machine.under` puts a state on top of such entries and output.

* `Machine.step_under`: transitions of the run are transitions on top of other work.
* `Machine.Delivers.under`, `Machine.Delivers.of_under`: so are whole runs, in both
  directions.
-/

namespace Treewalk

variable {low : List Pending}

/-- The world with more printed before. -/
def World.after (before : String) (world : World) : World :=
  ⟨world.heap, world.frames, before ++ world.output⟩

theorem World.after_empty (world : World) : world.after "" = world := by
  rw [World.after, String.empty_append]

/-- What was printed can count as printed before. -/
theorem World.after_output (world : World) :
    World.after world.output ⟨world.heap, world.frames, ""⟩ = world := by
  rw [World.after, String.append_empty]

/-- The same frames. -/
def FrameRelation.same : FrameRelation where
  Rel frames frames' := frames = frames'
  depth h := congrArg Frames.depth h
  push h name := congrArg (·.push name) h
  pop h := congrArg Frames.pop h
  add h name value := congrArg (·.add name value) h
  addAll h entries := congrArg (·.addAll entries) h

namespace Machine

/-- The state with more printed before, and with entries below its own. -/
def under (before : String) (low : List Pending) (m : Machine) : Machine :=
  ⟨m.world.after before, m.control, m.pending ++ low⟩

/-! ## All transitions -/

private theorem looksAlike_under (ctx : Context) (before : String) (low : List Pending)
    (m : Machine) :
    LooksAlike .same ctx ctx m (m.under before low) where
  var _ _ _ _ _ := rfl
  assign value span id name env _ _ _ := by
    cases hslots : ctx.slots m.world name id env with
    | error cause => exact .inl ⟨cause, hslots, hslots⟩
    | ok slots =>
      exact .inr ⟨slots.frame, slots.frame, slots.scope, hslots, hslots, rfl⟩
  callee _ _ _ _ _ _ _ _ _ _ := rfl

/-- Until a run has ended, its transitions are those on top of other work. -/
theorem step_under {ctx : Context} {before : String} {m : Machine}
    (running : ¬(m.control.isOutcome = true ∧ m.pending = [])) :
    step ctx (m.under before low) = (step ctx m).under before low := by
  have hover : Over .same before low m (m.under before low) := .mk rfl
  have hnext := hover.step ⟨rfl, rfl, rfl, rfl⟩ (looksAlike_under ctx before low m)
    fun houtcome hpending => absurd ⟨houtcome, hpending⟩ running
  generalize step ctx m = next, step ctx (m.under before low) = next' at hnext ⊢
  obtain @⟨heap, output, control, pending, frames, _, rfl⟩ := hnext
  rfl

private theorem under_pending_eq_iff {before : String} {m : Machine} :
    (m.under before low).pending = low ↔ m.pending = [] := by
  rw [show (m.under before low).pending = m.pending ++ low from rfl]
  exact List.append_left_eq_self

/-! ## Whole runs -/

namespace Delivers

variable {ctx : Context} {before : String} {low : List Pending} {m : Machine}

theorem under {final : Machine} (h : Delivers ctx [] m final) :
    Delivers ctx low (m.under before low) (final.under before low) := by
  induction h with
  | here outcome pending => exact .here outcome (under_pending_eq_iff.2 pending)
  | later running _ ih =>
    refine .later (fun hend => running ⟨hend.1, under_pending_eq_iff.1 hend.2⟩) ?_
    rw [step_under running]
    exact ih

theorem of_under {start final : Machine} (h : Delivers ctx low start final) :
    ∀ {m : Machine}, start = m.under before low →
      ∃ end', final = end'.under before low ∧ Delivers ctx [] m end' := by
  induction h with
  | here outcome pending =>
    rintro m rfl
    exact ⟨m, rfl, .here outcome (under_pending_eq_iff.1 pending)⟩
  | later running _ ih =>
    rintro m rfl
    have hrunning : ¬(m.control.isOutcome = true ∧ m.pending = []) :=
      fun hend => running ⟨hend.1, under_pending_eq_iff.2 hend.2⟩
    obtain ⟨end', hfinal, hdelivers⟩ := ih (step_under hrunning)
    exact ⟨end', hfinal, .later hrunning hdelivers⟩

end Delivers

end Machine

end Treewalk
