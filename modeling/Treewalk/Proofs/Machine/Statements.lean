import Treewalk.Proofs.Machine.Overlay
import Treewalk.Proofs.Machine.Under

/-!
# Top-level statements by themselves

A script goes from one top-level statement to the next. What it does for a statement is
the run of the statement alone, on top of the statements to come and after what was
printed before. So what a script reports is told by the end of its first statement and,
if this one ended normally, by what the script of the other statements reports
(`Machine.reports_cons_iff`).

A run alone may start with the global frame as the script has it by then, or with an
empty one as at the start of a script of its own. Without stale copies the two end
alike: `Machine.exists_delivers_alone_iff`.
-/

namespace Treewalk.Machine

variable {values : Table Value}

/-! ## Reports -/

/-- Between two top-level statements that end normally. -/
def between (world : World) (stmts : List Stmt) : Machine :=
  ⟨world, .flow .normal, [.seq stmts globalScope]⟩

/-- A top-level statement with nothing after it. -/
def alone (heap : Heap) (frames : Frames) (stmt : Stmt) : Machine :=
  ⟨⟨heap, frames, ""⟩, .exec stmt globalScope, []⟩

/-- The run ends with this heap and report. -/
def Reports (ctx : Context) (m : Machine) (heap : Heap) (report : Report) : Prop :=
  ∃ final, Delivers ctx [] m final ∧ final.outcome? = some report.result ∧
    final.world.output = report.output ∧ final.world.heap = heap

section Reports

variable {ctx : Context} {heap heap' : Heap} {frames : Frames} {world : World}
  {stmt : Stmt} {rest : List Stmt} {report : Report} {m : Machine}

private theorem delivers_of_ended {final : Machine}
    (houtcome : m.control.isOutcome = true) (hpending : m.pending = []) :
    Delivers ctx [] m final ↔ final = m := by
  constructor
  · intro h
    cases h with
    | here _ _ => rfl
    | later running _ => exact absurd ⟨houtcome, hpending⟩ running
  · rintro rfl
    exact .here houtcome hpending

private theorem reports_of_ended {result : Except RuntimeError (Option Value)}
    (houtcome : m.outcome? = some result) :
    Reports ctx m heap' report ↔
      report = ⟨result, m.world.output⟩ ∧ heap' = m.world.heap := by
  have hfinal : m.isFinal = true := by
    rw [isFinal, houtcome]
    rfl
  have hended := isFinal_iff.1 hfinal
  obtain ⟨found, output⟩ := report
  constructor
  · rintro ⟨final, hfinal, hfound, rfl, rfl⟩
    obtain rfl := (delivers_of_ended hended.1 hended.2).1 hfinal
    rw [houtcome] at hfound
    cases hfound
    exact ⟨rfl, rfl⟩
  · rintro ⟨hreport, rfl⟩
    cases hreport
    exact ⟨m, .here hended.1 hended.2, houtcome, rfl, rfl⟩

private theorem reports_after_iff {before : String} {stmts : List Stmt} :
    Reports ctx (between (world.after before) stmts) heap' report ↔
      ∃ later, Reports ctx (between world stmts) heap' later ∧
        report = ⟨later.result, before ++ later.output⟩ := by
  have hunder : between (world.after before) stmts =
    (between world stmts).under before [] := rfl
  have houtcome : ∀ m : Machine, (m.under before []).outcome? = m.outcome? := by
    rintro ⟨world, control, pending⟩
    cases control <;> cases pending <;> rfl
  obtain ⟨found, output⟩ := report
  rw [hunder]
  constructor
  · rintro ⟨final, hfinal, hfound, rfl, rfl⟩
    obtain ⟨last, rfl, hlast⟩ := hfinal.of_under rfl
    rw [houtcome] at hfound
    exact ⟨⟨found, last.world.output⟩, ⟨last, hlast, hfound, rfl, rfl⟩, rfl⟩
  · rintro ⟨⟨found', output'⟩, ⟨last, hlast, hfound, rfl, rfl⟩, hreport⟩
    cases hreport
    exact ⟨last.under before [], hlast.under, (houtcome last).trans hfound, rfl, rfl⟩

private theorem reports_step
    (hrunning : ¬(m.control.isOutcome = true ∧ m.pending = [])) :
    Reports ctx (step ctx m) heap' report ↔ Reports ctx m heap' report := by
  constructor
  · rintro ⟨final, hfinal, hreport⟩
    exact ⟨final, .later hrunning hfinal, hreport⟩
  · rintro ⟨final, hfinal, hreport⟩
    cases hfinal with
    | here outcome pending => exact absurd ⟨outcome, pending⟩ hrunning
    | later _ hfinal => exact ⟨final, hfinal, hreport⟩

theorem reports_between_nil :
    Reports ctx (between world []) heap' report ↔
      report = ⟨.ok none, world.output⟩ ∧ heap' = world.heap := by
  rw [← reports_step fun hend => by cases hend.2]
  exact reports_of_ended rfl

/-- What a script reports whose first statement, alone, ended in the given state. -/
inductive ReportsAfter (ctx : Context) (rest : List Stmt) : Machine → Heap →
  Report → Prop
  | failed {world : World} {error : RuntimeError} :
      ReportsAfter ctx rest ⟨world, .fail error, []⟩ world.heap
        ⟨.error error, world.output⟩
  | stopped {world : World} {flow : Flow} (leaves : flow ≠ .normal) :
      ReportsAfter ctx rest ⟨world, .flow flow, []⟩ world.heap ⟨.ok none, world.output⟩
  | continues {heap heap' : Heap} {frames : Frames} {output : String} {later : Report}
      (reports : Reports ctx (between ⟨heap, frames, ""⟩ rest) heap' later) :
      ReportsAfter ctx rest ⟨⟨heap, frames, output⟩, .flow .normal, []⟩ heap'
        ⟨later.result, output ++ later.output⟩

private theorem reports_seq_iff {last : Machine}
    (houtcome : last.control.isOutcome = true) (hpending : last.pending = []) :
    Reports ctx (step ctx ⟨last.world, last.control, [.seq rest globalScope]⟩)
      heap' report ↔ ReportsAfter ctx rest last heap' report := by
  obtain ⟨⟨heap, frames, output⟩, control, pending⟩ := last
  obtain rfl : pending = [] := hpending
  cases control with
  | eval _ _ | exec _ _ | native _ _ => cases houtcome
  | value value =>
    -- A statement never ends in a value; if it did, the machine would stay where it is.
    constructor
    · rintro ⟨final, hfinal, -⟩
      exact (hfinal.not_still rfl rfl).elim
    · intro h
      cases h
  | fail error =>
    refine (reports_of_ended rfl).trans ⟨?_, ?_⟩
    · rintro ⟨rfl, rfl⟩
      exact .failed
    · intro h
      cases h
      exact ⟨rfl, rfl⟩
  | flow flow =>
    by_cases hnormal : flow = .normal
    · subst hnormal
      rw [reports_step fun hend => by cases hend.2]
      show Reports ctx (between ⟨heap, frames, output⟩ rest) heap' report ↔ _
      rw [← World.after_output ⟨heap, frames, output⟩, reports_after_iff,
        World.after_output]
      constructor
      · rintro ⟨later, hlater, rfl⟩
        exact .continues hlater
      · intro h
        cases h with
        | stopped leaves => exact absurd rfl leaves
        | @continues _ _ _ _ later hlater => exact ⟨later, hlater, rfl⟩
    · have hstep :
        step ctx ⟨⟨heap, frames, output⟩, .flow flow, [.seq rest globalScope]⟩ =
          ⟨⟨heap, frames, output⟩, .flow flow, []⟩ := by
        cases flow with
        | normal => exact absurd rfl hnormal
        | brk => rfl
        | ret value => rfl
      rw [hstep]
      refine (reports_of_ended rfl).trans ⟨?_, ?_⟩
      · rintro ⟨rfl, rfl⟩
        exact .stopped hnormal
      · intro h
        cases h with
        | stopped _ => exact ⟨rfl, rfl⟩
        | continues _ => exact absurd rfl hnormal

/-- A script reports what its first statement, run alone, and the script of the others
make of it. -/
theorem reports_cons_iff :
    Reports ctx (between ⟨heap, frames, ""⟩ (stmt :: rest)) heap' report ↔
      ∃ last, Delivers ctx [] (alone heap frames stmt) last ∧
        ReportsAfter ctx rest last heap' report := by
  have hunder : ∀ {last : Machine}, last.pending = [] →
      last.under "" [.seq rest globalScope] =
        ⟨last.world, last.control, [.seq rest globalScope]⟩ := by
    intro last hpending
    rw [under, World.after_empty, hpending]
    rfl
  have hfirst : step ctx (between ⟨heap, frames, ""⟩ (stmt :: rest)) =
      (alone heap frames stmt).under "" [.seq rest globalScope] :=
    rfl
  have habove : [Pending.seq rest globalScope] <:+
      ((alone heap frames stmt).under "" [.seq rest globalScope]).pending :=
    List.suffix_append _ _
  rw [← reports_step (fun hend => by cases hend.2), hfirst]
  constructor
  · rintro ⟨final, hfinal, hreport⟩
    obtain ⟨middle, hmiddle, hrest⟩ := hfinal.split habove
    obtain ⟨last, rfl, hlast⟩ := hmiddle.of_under rfl
    rw [hunder hlast.pending] at hrest
    exact ⟨last, hlast, (reports_seq_iff hlast.outcome hlast.pending).1
      ⟨final, hrest, hreport⟩⟩
  · rintro ⟨last, hlast, hreport⟩
    obtain ⟨final, hrest, hreport⟩ :=
      (reports_seq_iff hlast.outcome hlast.pending).2 hreport
    rw [← hunder hlast.pending] at hrest
    exact ⟨final, hlast.under.join habove hrest, hreport⟩

end Reports

/-! ## The same statement with an empty global frame -/

section Alone

variable {ctx : Context} {own : List String} {before : String} {low : List Pending}
  {m : Machine}

private theorem puts?_under
    (hrunning : ¬(m.control.isOutcome = true ∧ m.pending = [])) :
    (m.under before low).puts? = m.puts? := by
  obtain ⟨world, control, pending⟩ := m
  cases control with
  | exec stmt env =>
    cases stmt with
    | var _ _ init => cases init <;> rfl
    | _ => rfl
  | value value =>
    cases pending with
    | nil => exact absurd ⟨rfl, rfl⟩ hrunning
    | cons next pending =>
      cases next with
      | superclass _ _ _ => cases value <;> rfl
      | _ => rfl
  | _ => rfl

private theorem Stale.under (h : m.Stale ctx own) :
    (m.under before low).Stale ctx own := by
  cases h with
  | read depth foreign copy differs => exact .read depth foreign copy differs
  | assign depth foreign copy unbound => exact .assign depth foreign copy unbound

/-- A transition inside a statement of a script is followed as one of the statement. -/
private theorem Follows.step_under {start : Machine} {entry : Pending}
    (h : Follows ctx start (m.under before [entry]) own)
    (hrunning : ¬(m.control.isOutcome = true ∧ m.pending = [])) :
    Follows ctx start ((Machine.step ctx m).under before [entry]) (ownAfter own m) := by
  have hinside : (m.under before [entry]).isBetween = false := by
    obtain ⟨world, control, pending⟩ := m
    cases control with
    | flow flow =>
      cases pending with
      | nil => exact absurd ⟨rfl, rfl⟩ hrunning
      | cons next pending => cases next <;> cases pending <;> rfl
    | _ => rfl
  have hown : ownAfter own (m.under before [entry]) = ownAfter own m := by
    rw [ownAfter, puts?_under hrunning]
    rfl
  have hstep := h.step
  rw [hinside, hown, Machine.step_under hrunning] at hstep
  exact hstep

variable {plan : List Site} {start : Machine} {acts : List Act} {rest : List Stmt}
  (hframes : ctx.discipline = .frames) (hagrees : Agrees plan ctx.resolution)
  (hstart : Standing plan [.globals] acts start)
  (hfresh : ∀ m own, Follows ctx start m own → ¬m.Stale ctx own)

include hframes hagrees hstart hfresh

/-- A statement of the script and the same statement with fewer copies stay in step. -/
private theorem run_overlay (limit : Nat) {m' : Machine}
    (hfollows : Follows ctx start (m.under before [.seq rest globalScope]) own)
    (h : InStep (.overlay own) m m') :
    ∃ own',
      Follows ctx start ((m.run ctx limit).under before [.seq rest globalScope]) own' ∧
      InStep (.overlay own') (m.run ctx limit) (m'.run ctx limit) := by
  induction limit generalizing own m m' with
  | zero => exact ⟨own, hfollows, h⟩
  | succ limit ih =>
    have hfinal : m'.isFinal = m.isFinal := by
      rw [Bool.eq_iff_iff, isFinal_iff, isFinal_iff, h.control, h.pending]
    unfold run
    rw [hfinal]
    by_cases hend : m.isFinal = true
    · rw [if_pos hend, if_pos hend]
      exact ⟨own, hfollows, h⟩
    · rw [if_neg hend, if_neg hend]
      have hrunning : ¬(m.control.isOutcome = true ∧ m.pending = []) :=
        fun hended => hend (isFinal_iff.2 hended)
      refine ih (hfollows.step_under hrunning) (inStep_overlay hframes h ?_ ?_)
      · exact fun hstale => hfresh _ _ hfollows hstale.under
      · intro value call done current args below hcontrol hpending
        have hbelow : (m.under before [.seq rest globalScope]).pending =
            .argument call done current args :: (below ++ [.seq rest globalScope]) := by
          rw [under, hpending]
          rfl
        have hdepth := hfollows.depth_of_argument hagrees hstart hcontrol hbelow
        exact hdepth

/-- What can be told from the end of a statement in the script can be told from its end
with an empty global frame. -/
theorem exists_delivers_alone_iff {heap : Heap} {frames : Frames} {output : String}
    {stmt : Stmt} (hlist : frames.list = [⟨globalFrame, values⟩])
    (hfollows : Follows ctx start (between ⟨heap, frames, output⟩ (stmt :: rest)) own)
    {P P' : Machine → Prop}
    (hsame : ∀ last last' own', Delivers ctx [] (alone heap frames stmt) last →
      Follows ctx start (last.under output [.seq rest globalScope]) own' →
      InStep (.overlay own') last last' → (P last ↔ P' last')) :
    (∃ last, Delivers ctx [] (alone heap frames stmt) last ∧ P last) ↔
      ∃ last', Delivers ctx [] (alone heap (World.start heap).frames stmt) last' ∧
        P' last' := by
  have hfirst : Follows ctx start
      ((alone heap frames stmt).under output [.seq rest globalScope]) [] := by
    have hstep := hfollows.step
    rw [← World.after_output ⟨heap, frames, output⟩] at hstep
    exact hstep
  have hoverlaid : Overlaid [] frames.list (World.start heap).frames.list :=
    .inr ⟨[], globalFrame, values, [], hlist, rfl, (fun _ _ hfound => by cases hfound),
      (fun _ hkey => by cases hkey)⟩
  have hstep : InStep (.overlay []) (alone heap frames stmt)
      (alone heap (World.start heap).frames stmt) :=
    .mk hoverlaid
  have hrun := fun limit => run_overlay hframes hagrees hstart hfresh limit hfirst hstep
  constructor
  · rintro ⟨last, hlast, hP⟩
    obtain ⟨limit, rfl⟩ := hlast.exists_run
    obtain ⟨own', hfollows', h⟩ := hrun limit
    refine ⟨_, .of_run ?_, (hsame _ _ own' hlast hfollows' h).1 hP⟩
    rw [isFinal_iff, ← h.control, ← h.pending]
    exact ⟨hlast.outcome, hlast.pending⟩
  · rintro ⟨last', hlast', hP⟩
    obtain ⟨limit, rfl⟩ := hlast'.exists_run
    obtain ⟨own', hfollows', h⟩ := hrun limit
    have hlast : Delivers ctx [] (alone heap frames stmt)
        ((alone heap frames stmt).run ctx limit) := by
      refine .of_run ?_
      rw [isFinal_iff, h.control, h.pending]
      exact ⟨hlast'.outcome, hlast'.pending⟩
    exact ⟨_, hlast, (hsame _ _ own' hlast hfollows' h).2 hP⟩

end Alone

/-- A statement leaves the global frame where it was. -/
theorem Delivers.list_of_alone {ctx : Context} {heap : Heap} {frames : Frames}
    {stmt : Stmt} {last : Machine} (h : Delivers ctx [] (alone heap frames stmt) last)
    (hlist : frames.list = [⟨globalFrame, values⟩]) :
    ∃ values', last.world.frames.list = [⟨globalFrame, values'⟩] := by
  have htouched := h.retouched (.same _)
  rw [hlist] at htouched
  generalize last.world.frames.list = list at htouched ⊢
  cases htouched with
  | top _ => exact ⟨_, rfl⟩

end Treewalk.Machine
