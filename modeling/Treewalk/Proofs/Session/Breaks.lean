import Treewalk.Proofs.Machine.Deliver
import Treewalk.Proofs.Machine.Recast
import Treewalk.Proofs.Session.Numbers

/-!
# What `break` leaves

The settings say whether `break` leaves the loop or the function around it. A loop
catches every `break` of its body, so it never ends with one (`Machine.Looping.step`).
Where `break` leaves the function there is nothing to catch: no statement ends with a
`break` (`Machine.isBreak_step`), and a program does what it does with `return;` written
for every `break;` (`Session.break_means_return`).
-/

namespace Treewalk

variable {control : Control} {natives : List Native} {session : Session}

private theorem Control.ne_of_isBreak (h : control.isBreak = false) :
    control ≠ .flow .brk := by
  rintro rfl
  cases h

namespace Machine

variable {ctx : Context} {world : World} {pending : List Pending}

/-! ## Loops -/

/-- The loop is under way on top of `base`, or it has ended otherwise than with
`break`. -/
inductive Looping (cond : Expr) (body : Stmt) (env : ScopeId) (base : List Pending)
    (m : Machine) : Prop where
  | test (above : .loopTest cond body env :: base <:+ m.pending)
  | body (above : .loopBody cond body env :: base <:+ m.pending)
  | ended (outcome : m.control.isOutcome = true) (pending : m.pending = base)
      (unbroken : m.control.isBreak = false)

section Loops

variable {cond : Expr} {body : Stmt} {env : ScopeId} {base : List Pending}

private theorem looping_test (outcome : control.isOutcome = true) :
    Looping cond body env base
      (step ctx ⟨world, control, .loopTest cond body env :: base⟩) := by
  cases control with
  | value value =>
    simp only [step, receive]
    split
    · exact .body (List.suffix_refl _)
    · exact .ended rfl rfl rfl
  | flow flow => exact .test (List.suffix_refl _)
  | fail error => exact .ended rfl rfl rfl
  | _ => cases outcome

private theorem looping_body (outcome : control.isOutcome = true) :
    Looping cond body env base
      (step ctx ⟨world, control, .loopBody cond body env :: base⟩) := by
  cases control with
  | value value => exact .body (List.suffix_refl _)
  | flow flow =>
    cases flow with
    | normal => exact .test (List.suffix_refl _)
    | brk => exact .ended rfl rfl rfl
    | ret value => exact .ended rfl rfl rfl
  | fail error => exact .ended rfl rfl rfl
  | _ => cases outcome

theorem Looping.step {m : Machine} (h : Looping cond body env base m)
    (running : ¬(m.control.isOutcome = true ∧ m.pending = base)) :
    Looping cond body env base (Machine.step ctx m) := by
  obtain ⟨world, control, pending⟩ := m
  cases h with
  | test above =>
    by_cases here : control.isOutcome = true ∧ pending = .loopTest cond body env :: base
    · obtain ⟨outcome, rfl⟩ := here
      exact looping_test outcome
    · exact .test (step_suffix above here)
  | body above =>
    by_cases here : control.isOutcome = true ∧ pending = .loopBody cond body env :: base
    · obtain ⟨outcome, rfl⟩ := here
      exact looping_body outcome
    · exact .body (step_suffix above here)
  | ended outcome pending _ => exact absurd ⟨outcome, pending⟩ running

/-- A loop never ends with `break`. -/
theorem isBreak_of_loop {span : Span} {final : Machine}
    (h : Delivers ctx base ⟨world, .exec (.loop span cond body) env, base⟩ final) :
    final.control.isBreak = false := by
  have hstart : Looping cond body env base
      (Machine.step ctx ⟨world, .exec (.loop span cond body) env, base⟩) :=
        .test (List.suffix_refl _)
  cases h with
  | here outcome _ => cases outcome
  | later _ run =>
    have hfinal := run.keeps (fun _ hlooping => hlooping.step) hstart
    have hpending := run.pending
    cases hfinal with
    | test above =>
      rw [hpending] at above
      exact absurd above.length_le (Nat.not_succ_le_self _)
    | body above =>
      rw [hpending] at above
      exact absurd above.length_le (Nat.not_succ_le_self _)
    | ended _ _ unbroken => exact unbroken

end Loops

end Machine

/-! ## Programs -/

namespace Session

/-- A fresh session that knows what is resolved about a program. -/
def ofProgram (settings : RunSettings) (natives : List Native) (program : Program) :
    Except ResolveError Session :=
  (program.resolve (Native.enabled natives) (start settings natives).globalNames).map
    fun resolution =>
    { start settings natives with
      resolution := (start settings natives).resolution.merge resolution }

/-- The session with the values of its heap recast. -/
def recast (c : Recast) (session : Session) : Session :=
  { session with heap := session.heap.recast c }

end Session

/-- The report with its value recast. Its error and its output stay. -/
def Report.recast (c : Recast) (report : Report) : Report where
  result := report.result.map fun value => value.map (Value.recast c)
  output := report.output

namespace Session

open Machine

private theorem fresh_of_ofProgram {settings : RunSettings} {program : Program}
    (h : ofProgram settings natives program = .ok session) :
    session.settings = settings ∧ session.heap = .start natives := by
  unfold ofProgram at h
  cases hresolve : program.resolve (Native.enabled natives)
    (start settings natives).globalNames with
  | error fault =>
    rw [hresolve] at h
    cases h
  | ok resolution =>
    rw [hresolve] at h
    cases h
    exact ⟨rfl, rfl⟩

/-- A session where `break` leaves the function performs both programs alike. -/
private theorem perform_returning (hpolicy : session.settings.breakPolicy = .function)
    (hheap : session.heap = .start natives) {task : Program → Task}
    (htask : task = .run ∨ task = .script) (program : Program) (limit : Nat)
    (host : Host) :
    session.perform limit host (task (program.recast .returning)) =
      (session.perform limit host (task program)).map fun (done, report) =>
        (done.recast .returning, report.recast .returning) := by
  have hcontext : (session.context host).Matches .returning (session.context host) :=
    ⟨rfl, rfl, rfl, rfl, fun _ => ⟨rfl, rfl⟩, fun _ => hpolicy⟩
  have hmachine : (task (program.recast .returning)).machine session.heap =
      ((task program).machine session.heap).recast .returning := by
    have hstart := Heap.recast_start .returning natives
    rw [hheap]
    rcases htask with rfl | rfl
    · have hprogram := Machine.ofProgram_recast .returning (.start natives) program
      rwa [hstart] at hprogram
    · have hscript : ofScript ((Heap.start natives).recast .returning)
        (program.recast .returning) =
          (ofScript (.start natives) program).recast .returning := rfl
      rwa [hstart] at hscript
  rw [perform_recast hcontext hmachine limit]
  cases hperform : session.perform limit host (task program) with
  | none => rfl
  | some performed =>
    obtain ⟨result, -, heq⟩ := Option.map_eq_some_iff.1 hperform
    cases heq
    rfl

/-- Where `break` leaves the function it means `return`. A program that can be resolved
and the program with `return;` for every `break;`, in fresh sessions, print the same and
come to the same error or result, and the globals that they leave differ only in that
functions are written so. Whatever `break` leaves, no loop ends with a `break`, and
where it leaves the function no statement does. -/
theorem break_means_return :
    (∀ settings natives program session, settings.breakPolicy = .function →
      ofProgram settings natives program = .ok session →
      ofProgram settings natives (program.recast .returning) = .ok session ∧
        ∀ limit host task, task = Task.run ∨ task = Task.script →
          session.perform limit host (task (program.recast .returning)) =
            (session.perform limit host (task program)).map fun (done, report) =>
              (done.recast .returning, report.recast .returning)) ∧
    (∀ ctx world base env span cond body final,
      Delivers ctx base ⟨world, .exec (.loop span cond body) env, base⟩ final →
        final.control ≠ .flow .brk) ∧
    ∀ ctx world base env stmt final, ctx.settings.breakPolicy = .function →
      Delivers ctx base ⟨world, .exec stmt env, base⟩ final →
        final.control ≠ .flow .brk := by
  refine ⟨fun settings natives program session hpolicy hfresh => ⟨?_, ?_⟩, ?_, ?_⟩
  · rwa [ofProgram, program.resolve_returning]
  · intro limit host task htask
    obtain ⟨hsettings, hheap⟩ := fresh_of_ofProgram hfresh
    exact perform_returning (hsettings ▸ hpolicy) hheap htask program limit host
  · intro ctx world base env span cond body final hdelivers
    exact Control.ne_of_isBreak (isBreak_of_loop hdelivers)
  · intro ctx world base env stmt final hpolicy hdelivers
    have hend : final.control.isBreak = false :=
      hdelivers.keeps (P := fun m => m.control.isBreak = false)
        (fun _ hunbroken _ => isBreak_step hpolicy hunbroken) rfl
    exact Control.ne_of_isBreak hend

/-- An initializer, a function and the script are left by `break`, the first of them
from inside a loop. -/
def exitSource : String :=
  "class C = { func init() = { this.x = 1; while (true) { break; } this.x = 2; } }
    func f() = { if (true) { break; } print(3); } print(C().x); f(); print(4); break;
      print(5);"

theorem break_means_return_exit :
    ∃ program next session, Source.read 0 exitSource = (.ok program, next) ∧
      ofProgram Settings.default.run Native.all program = .ok session ∧
      ofProgram Settings.default.run Native.all (program.recast .returning) =
        .ok session ∧
      (session.perform 90 idleHost (.run program)).map (fun done => done.2.output) =
        some "14" ∧
      (session.perform 90 idleHost (.run (program.recast .returning))).map
        (fun done => done.2.output) = some "14" := by
  have hfacts : ((Source.read 0 exitSource).1.toOption.bind fun program =>
      (ofProgram Settings.default.run Native.all program).toOption.bind fun session =>
        (session.perform 90 idleHost (.run program)).map fun done => done.2.output) =
          some "14" := by
    decide +kernel
  obtain ⟨program, hprogram, hsession⟩ := Option.bind_eq_some_iff.1 hfacts
  obtain ⟨session, hsession, houtput⟩ := Option.bind_eq_some_iff.1 hsession
  have hread : Source.read 0 exitSource =
      (.ok program, (Source.read 0 exitSource).2) := by
    generalize Source.read 0 exitSource = found at hprogram
    obtain ⟨_ | parsed, next⟩ := found <;> cases hprogram
    rfl
  have hfresh : ofProgram Settings.default.run Native.all program = .ok session := by
    generalize ofProgram Settings.default.run Native.all program = found at hsession
    cases found <;> cases hsession
    rfl
  obtain ⟨hfresh', hperform⟩ := break_means_return.1 _ _ _ _ rfl hfresh
  refine ⟨program, _, session, hread, hfresh, hfresh', houtput, ?_⟩
  rw [hperform 90 idleHost .run (.inl rfl), Option.map_map]
  exact houtput

end Session

end Treewalk
