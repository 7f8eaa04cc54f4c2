import Mathlib
import Treewalk.Command.Prompt
import Treewalk.Proofs.Machine.Under
import Treewalk.Proofs.Session.Founded

/-!
# Driven runs

A command drives its machine in strides. It asks the world when the machine asks the
host, and prints what the machine has printed. The answers come one at a time and may be
any; yet the whole is one run. A question uses up a stamp, and a machine depends on no
answers but those to stamps that it has yet to draw (`Machine.run_congr_host`), so all
the answers that were given on the way make up one host.

* `System.satisfies_drive`: what is driven is reached, under that host.
* `System.satisfies_submit_logged`: what is submitted ends as `Session.submit` says, and
  what was printed is the output. Printing is told by `System.logged`, which keeps a
  record.
* `Prompt.moves_answer`: the session of the prompt goes by the moves of sessions.
-/

namespace Treewalk

namespace Machine

variable {ctx : Context} {m : Machine} {host host' : Host} {before : String}
  {limit : Nat}

/-! ## Hosts -/

/-- Only a machine that asks the host depends on it, and then on the answers to the next
stamp alone. -/
private theorem step_congr_host
    (h : m.asksHost = true →
      host.answers m.world.heap.nextStamp = host'.answers m.world.heap.nextStamp) :
    m.step { ctx with host := host } = m.step { ctx with host := host' } := by
  obtain ⟨⟨heap, frames, output⟩, control, pending⟩ := m
  cases control with
  | eval expr env => rfl
  | exec stmt env => rfl
  | native name args =>
    have hanswers : host.answers heap.nextStamp = host'.answers heap.nextStamp := h rfl
    simp only [step, callNative, Heap.draw, hanswers]
  | value value => cases pending <;> rfl
  | flow flow => cases pending <;> rfl
  | fail error => cases pending <;> rfl

theorem run_congr_host {m : Machine}
    (h : ∀ stamp, m.world.heap.nextStamp ≤ stamp →
      host.answers stamp = host'.answers stamp) :
    m.run { ctx with host := host } limit = m.run { ctx with host := host' } limit := by
  induction limit generalizing m with
  | zero => rfl
  | succ limit ih =>
    have hstep : m.step { ctx with host := host } = m.step { ctx with host := host' } :=
      step_congr_host fun _ => h _ (Nat.le_refl _)
    have hle := (step_edits { ctx with host := host } m).nextStamp_le
    unfold run
    rw [← hstep, ih fun stamp hstamp => h stamp (Nat.le_trans hle hstamp)]

/-- A question uses up a stamp and prints nothing. -/
private theorem step_of_asksHost (h : m.asksHost = true) :
    (m.step ctx).world.heap.nextStamp = m.world.heap.nextStamp + 1 ∧
      (m.step ctx).world.output = m.world.output := by
  obtain ⟨⟨heap, frames, output⟩, control, pending⟩ := m
  cases control with
  | native name args =>
    simp only [step, callNative]
    split
    · exact ⟨rfl, rfl⟩
    · split <;> exact ⟨rfl, rfl⟩
  | _ => cases h

/-- The answers to one question, before those of a run that goes on after it. -/
private theorem exists_run_after_question {answers : Answers} (h : m.asksHost = true) :
    ∃ host' : Host,
      (m.step { ctx with host := ⟨fun _ => answers⟩ }).run
        { ctx with host := host } limit =
        m.run { ctx with host := host' } (limit + 1) := by
  let host' : Host :=
    ⟨fun stamp => if stamp = m.world.heap.nextStamp then answers
      else host.answers stamp⟩
  have hstep : m.step { ctx with host := ⟨fun _ => answers⟩ } =
      m.step { ctx with host := host' } :=
    step_congr_host fun _ => (if_pos rfl).symm
  have hrunning : m.isFinal = false := by
    obtain ⟨world, control, pending⟩ := m
    cases control with
    | native name args => cases pending <;> rfl
    | _ => cases h
  refine ⟨host', ?_⟩
  rw [run, hrunning, hstep]
  refine run_congr_host fun stamp hstamp => (if_neg fun heq => ?_).symm
  rw [(step_of_asksHost h).1] at hstamp
  omega

/-! ## Output that is taken away -/

private theorem outcome?_under : (m.under before []).outcome? = m.outcome? := by
  obtain ⟨world, control, pending⟩ := m
  rw [under, List.append_nil]
  cases control <;> cases pending <;> rfl

private theorem isFinal_under : (m.under before []).isFinal = m.isFinal :=
  congrArg Option.isSome outcome?_under

private theorem run_under {m : Machine} :
    (m.under before []).run ctx limit = (m.run ctx limit).under before [] := by
  induction limit generalizing m with
  | zero => rfl
  | succ limit ih =>
    unfold run
    rw [isFinal_under]
    split
    · rfl
    · rename_i hrunning
      rw [step_under fun hend => hrunning (isFinal_iff.2 hend), ih]

private theorem under_under {earlier : String} :
    (m.under before []).under earlier [] = m.under (earlier ++ before) [] := by
  simp only [under, World.after, List.append_nil, String.append_assoc]

private theorem under_empty : m.under "" [] = m := by
  rw [under, World.after_empty, List.append_nil]

private theorem under_takeOutput (m : Machine) :
    m.takeOutput.2.under m.takeOutput.1 [] = m := by
  simp only [under, World.after, takeOutput, List.append_nil, String.append_empty]

/-! ## Strides -/

/-- A stride is part of the run, whatever the host. It ends early at a question only. -/
private theorem exists_run_advance (m : Machine) (ctx : Context) (limit : Nat) :
    ∃ steps, (limit ≤ steps ∨ (m.advance ctx limit).asksHost = true) ∧
      ∀ host, m.run { ctx with host := host } steps = m.advance ctx limit := by
  induction limit generalizing m with
  | zero => exact ⟨0, .inl (Nat.le_refl 0), fun _ => rfl⟩
  | succ limit ih =>
    unfold advance
    split
    · rename_i hstops
      rcases Bool.or_eq_true _ _ ▸ hstops with hfinal | hasks
      · refine ⟨limit + 1, .inl (Nat.le_refl _), fun host => ?_⟩
        exact if_pos hfinal
      · exact ⟨0, .inr hasks, fun _ => rfl⟩
    · rename_i hgoes
      obtain ⟨hrunning, hsilent⟩ := Bool.or_eq_false_iff.1 (Bool.eq_false_iff.2 hgoes)
      obtain ⟨steps, hends, hsteps⟩ := ih (m.step ctx)
      refine ⟨steps + 1, hends.imp_left Nat.succ_le_succ, fun host => ?_⟩
      have hstep : m.step { ctx with host := host } =
          m.step { ctx with host := ctx.host } :=
        step_congr_host fun hasks => absurd hasks (Bool.eq_false_iff.1 hsilent)
      unfold run
      rw [hrunning, hstep]
      exact hsteps host

/-- A stride whose output is taken away, on top of what was printed before. -/
private theorem exists_run_stride (m : Machine) (ctx : Context) (limit : Nat)
    {output : String} {rest : Machine}
    (h : (m.advance ctx limit).takeOutput = (output, rest)) :
    rest.world.output = "" ∧ ∃ steps, (limit ≤ steps ∨ rest.asksHost = true) ∧
      ∀ host printed, (m.under printed []).run { ctx with host := host } steps =
        rest.under (printed ++ output) [] := by
  obtain ⟨steps, hends, hsteps⟩ := m.exists_run_advance ctx limit
  generalize m.advance ctx limit = reached at h hends hsteps
  have hreached : rest.under output [] = reached := by
    rw [← reached.under_takeOutput, h]
  refine ⟨congrArg (·.2.world.output) h.symm, steps, ?_, fun host printed => ?_⟩
  · rwa [← hreached] at hends
  · rw [run_under, hsteps, ← hreached, under_under]

end Machine

/-! ## What was said -/

namespace System

variable {m : Type → Type} [Monad m]

/-- The same system, with a record of what is printed. -/
def logged (system : System m) : System (StateT String m) where
  text path := StateT.lift (system.text path)
  isFile path := StateT.lift (system.isFile path)
  memoryReport := StateT.lift system.memoryReport
  clock := StateT.lift system.clock
  readLine := StateT.lift system.readLine
  print text := do
    StateT.lift (system.print text)
    modify (· ++ text)
  complain text := StateT.lift (system.complain text)
  visit := system.visit

variable (system : System m)

theorem reply_of_not_asksHost {ctx : Context} {machine : Machine}
    (h : machine.asksHost = false) :
    system.reply ctx machine = pure machine := by
  obtain ⟨world, control, pending⟩ := machine
  cases control with
  | native name args => cases h
  | _ => rfl

variable [LawfulMonad m]

private theorem run_say_logged (text printed : String) :
    (system.logged.say text).run printed = (fun _ => ((), printed ++ text)) <$>
      system.say text := by
  unfold say
  split
  · rename_i hnone
    simp [hnone]
  · simp [logged]

private theorem run_reply_logged (ctx : Context) (machine : Machine)
    (printed : String) :
    (system.logged.reply ctx machine).run printed = (·, printed) <$>
      system.reply ctx machine := by
  unfold reply
  split
  · unfold answersFor
    split <;> simp [logged]
  · simp

private theorem run_drive_logged_succ (ctx : Context) (rounds : Nat) (machine : Machine)
    (printed : String) :
    (system.logged.drive ctx (rounds + 1) machine).run printed =
      let (output, machine) := (machine.advance ctx stride).takeOutput
      system.say output >>= fun _ =>
        if machine.isFinal then pure (machine, printed ++ output)
        else system.reply ctx machine >>= fun machine =>
          (system.logged.drive ctx rounds machine).run (printed ++ output) := by
  simp only [drive, StateT.run_bind, run_say_logged, bind_map_left]
  refine congrArg _ (funext fun _ => ?_)
  split
  · simp
  · simp [run_reply_logged]

/-- The record changes nothing. -/
private theorem run_drive_logged (ctx : Context) (rounds : Nat) (machine : Machine)
    (printed : String) :
    Prod.fst <$> (system.logged.drive ctx rounds machine).run printed =
      system.drive ctx rounds machine := by
  induction rounds generalizing machine printed with
  | zero => simp [drive]
  | succ rounds ih =>
    rw [run_drive_logged_succ, drive]
    simp only [map_bind, apply_ite, map_pure, ih]

private theorem satisfies_reply {ctx : Context} {machine : Machine}
    (h : machine.asksHost = true) :
    SatisfiesM
      (fun next => ∃ answers, next =
        machine.step { ctx with host := ⟨fun _ => answers⟩ })
      (system.reply ctx machine) := by
  unfold reply
  split
  · exact SatisfiesM.trivial.bind fun answers _ => .pure ⟨answers, rfl⟩
  · rename_i hother
    obtain ⟨world, control, pending⟩ := machine
    cases control with
    | native name args => exact absurd rfl (hother name args)
    | _ => cases h

/-- What is driven is a run: under a host that gives the answers that were asked for,
the machine comes to the state returned. What was printed on the way is the output of
that run, and unless it has ended it is at least as long as there are rounds. -/
theorem satisfies_drive_logged (ctx : Context) (rounds : Nat) {machine : Machine}
    (printed : String) (hsilent : machine.world.output = "") :
    SatisfiesM (fun result => result.1.world.output = "" ∧ ∃ host limit,
      rounds ≤ limit ∧
        (machine.under printed []).run { ctx with host := host } limit =
          result.1.under result.2 [])
      ((system.logged.drive ctx rounds machine).run printed) := by
  induction rounds generalizing machine printed with
  | zero => exact .pure ⟨hsilent, .silent, 0, Nat.le_refl 0, rfl⟩
  | succ rounds ih =>
    rw [run_drive_logged_succ]
    obtain ⟨⟨output, rest⟩, htaken⟩ :
        ∃ taken, (machine.advance ctx stride).takeOutput = taken := ⟨_, rfl⟩
    obtain ⟨hempty, steps, hends, hrun⟩ := machine.exists_run_stride ctx stride htaken
    simp only [htaken]
    refine SatisfiesM.trivial.bind fun _ _ => ?_
    split
    · rename_i hfinal
      refine .pure ⟨hempty, .silent, steps + (rounds + 1), by omega, ?_⟩
      rw [Machine.run_add, hrun]
      exact Machine.run_eq_of_le (Nat.zero_le _) (Machine.isFinal_under.trans hfinal)
    cases hasks : rest.asksHost with
    | true =>
      refine (system.satisfies_reply hasks).bind ?_
      rintro next ⟨answers, rfl⟩
      refine (ih (printed ++ output)
        ((Machine.step_of_asksHost hasks).2.trans hempty)).imp ?_
      rintro result ⟨hsaid, host, limit, hle, hlater⟩
      obtain ⟨host', hhost⟩ := Machine.exists_run_after_question hasks
      refine ⟨hsaid, host', steps + (limit + 1), by omega, ?_⟩
      rw [Machine.run_add, hrun, Machine.run_under, ← hhost,
        ← Machine.run_under, hlater]
    | false =>
      rw [system.reply_of_not_asksHost hasks, pure_bind]
      refine (ih (printed ++ output) hempty).imp ?_
      rintro result ⟨hsaid, host, limit, hle, hlater⟩
      have hmoved : stride ≤ steps := hends.resolve_right (Bool.eq_false_iff.1 hasks)
      refine ⟨hsaid, host, steps + limit, ?_, ?_⟩
      · unfold stride at hmoved
        omega
      · rw [Machine.run_add, hrun, hlater]

/-- What is driven is reached. -/
theorem satisfies_drive (ctx : Context) (rounds : Nat) {machine : Machine}
    (hsilent : machine.world.output = "") :
    SatisfiesM (fun final => ∃ host printed,
        Machine.Reaches { ctx with host := host } machine (final.under printed []))
      (system.drive ctx rounds machine) := by
  rw [← system.run_drive_logged ctx rounds machine ""]
  refine (system.satisfies_drive_logged ctx rounds "" hsilent).map ?_
  rintro ⟨final, printed⟩ ⟨-, host, limit, -, hrun⟩
  rw [Machine.under_empty] at hrun
  refine ⟨host, printed, ?_⟩
  rw [← hrun]
  exact .run _ limit machine

end System

/-! ## Tasks and texts -/

/-- The session, the result and the output after so many transitions of a task. -/
def Session.after (host : Host) (limit : Nat) (session : Session) (task : Task) :
    (Session × Except RuntimeError (Option Value)) × String :=
  let final := (task.machine session.heap).run (session.context host) limit
  (({ session with heap := final.world.heap }, final.outcome?.getD (.ok none)),
    final.world.output)

theorem Session.after_of_perform {host : Host} {limit : Nat}
    {session session' : Session} {task : Task} {report : Report}
    (h : session.perform limit host task = some (session', report)) :
    session.after host limit task = ((session', report.result), report.output) := by
  obtain ⟨result, hresult, heq⟩ := Option.map_eq_some_iff.1 h
  cases heq
  simp only [after, hresult, Option.getD_some]

namespace System

variable {m : Type → Type} [Monad m] [LawfulMonad m] (system : System m)

private theorem satisfies_perform_logged (rounds : Nat) (session : Session)
    (task : Task) :
    SatisfiesM (fun result => ∃ host limit, rounds ≤ limit ∧
        result = session.after host limit task)
      ((system.logged.perform rounds session task).run "") := by
  have hstart : (task.machine session.heap).world.output = "" := by
    rw [Task.world_machine]
    rfl
  rw [perform, StateT.run_bind]
  refine (system.satisfies_drive_logged _ rounds "" hstart).bind ?_
  rintro ⟨final, said⟩ ⟨hsilent, host, limit, hle, hrun⟩
  refine .pure ⟨host, limit, hle, ?_⟩
  have hfinal : (task.machine session.heap).run (session.context host) limit =
      final.under said [] := by
    rwa [Machine.under_empty] at hrun
  have hsaid : (final.under said []).world.output = said :=
    (congrArg (said ++ ·) hsilent).trans String.append_empty
  simp only [Session.after, hfinal, Machine.outcome?_under, hsaid]
  rfl

theorem run_perform_logged (rounds : Nat) (session : Session) (task : Task)
    (printed : String) :
    Prod.fst <$> (system.logged.perform rounds session task).run printed =
      system.perform rounds session task := by
  simp only [perform, StateT.run_bind, StateT.run_pure, map_bind, map_pure]
  rw [← system.run_drive_logged _ rounds _ printed, bind_map_left]

theorem satisfies_perform (rounds : Nat) (session : Session) (task : Task) :
    SatisfiesM (fun result => ∃ host limit, rounds ≤ limit ∧
        result = (session.after host limit task).1)
      (system.perform rounds session task) := by
  rw [← system.run_perform_logged rounds session task ""]
  refine (system.satisfies_perform_logged rounds session task).map ?_
  rintro result ⟨host, limit, hle, rfl⟩
  exact ⟨host, limit, hle, rfl⟩

/-- If the run ends, what is submitted ends as it does in a session under the host that
gives the answers that were asked for. -/
theorem satisfies_submit_logged (rounds : Nat) (session : Session)
    (task : Program → Task) (source : String) :
    SatisfiesM (fun result => ∃ host limit, rounds ≤ limit ∧
        ∀ session' answer output,
          session.submit limit host task source = some (session', answer, output) →
            result = ((session', answer), output))
      ((system.logged.submit rounds session task source).run "") := by
  unfold submit Session.submit
  generalize session.prepare source = prepared
  obtain ⟨prepared, result⟩ := prepared
  cases result with
  | error e =>
    refine .pure
      ⟨.silent, rounds, Nat.le_refl rounds, fun session' answer output h => ?_⟩
    cases h
    rfl
  | ok program =>
    refine (system.satisfies_perform_logged rounds prepared (task program)).bind ?_
    rintro result ⟨host, limit, hle, hresult⟩
    refine .pure ⟨host, limit, hle, fun session' answer output h => ?_⟩
    obtain ⟨⟨ended, report⟩, hperform, heq⟩ := Option.map_eq_some_iff.1 h
    cases heq
    cases hresult.trans (Session.after_of_perform hperform)
    rfl

/-- Whatever is submitted, the session moves as sessions do. -/
theorem moves_submit (rounds : Nat) (session : Session) (task : Program → Task)
    (source : String) :
    SatisfiesM
      (fun result => Relation.ReflTransGen Session.Moves (.idle session)
        (.idle result.1))
      (system.submit rounds session task source) := by
  have hread : Session.Moves (.idle session) (.idle (session.prepare source).1) :=
    .read session source
  unfold submit
  generalize session.prepare source = prepared at hread
  obtain ⟨prepared, result⟩ := prepared
  cases result with
  | error e => exact .pure (.single hread)
  | ok program =>
    refine (system.satisfies_perform rounds prepared (task program)).bind ?_
    rintro result ⟨host, limit, -, rfl⟩
    have hrun := Session.moves_reaches
      (.run (prepared.context host) limit ((task program).machine prepared.heap))
    exact .pure (((Relation.ReflTransGen.single hread).tail
      (.start prepared (task program))).trans (hrun.tail (.finish prepared _)))

end System

/-- So does the session of the prompt, whatever it is asked. -/
theorem Prompt.moves_answer {m : Type → Type} [Monad m] [LawfulMonad m]
    (system : System m) (rounds : Nat) (session : Session) (request : Request) :
    SatisfiesM (fun next => ∀ session' ∈ next,
        Relation.ReflTransGen Session.Moves (.idle session) (.idle session'))
      (answer system rounds session request) := by
  have hsame : ∀ session' ∈ some session,
      Relation.ReflTransGen Session.Moves (.idle session) (.idle session') := by
    rintro _ ⟨⟩
    exact .refl
  cases request with
  | nothing => exact .pure hsame
  | quit => exact SatisfiesM.trivial.bind fun _ _ => .pure nofun
  | help => exact SatisfiesM.trivial.bind fun _ _ => .pure hsame
  | clear => exact SatisfiesM.trivial.bind fun _ _ => .pure hsame
  | globals => exact SatisfiesM.trivial.bind fun _ _ => .pure hsame
  | unknown command => exact SatisfiesM.trivial.bind fun _ _ => .pure hsame
  | source text =>
    refine (system.moves_submit rounds session Task.ofLine text).bind ?_
    rintro ⟨session', result⟩ hmoves
    have hnext : ∀ next ∈ some session',
        Relation.ReflTransGen Session.Moves (.idle session) (.idle next) := by
      rintro _ ⟨⟩
      exact hmoves
    cases result with
    | error e => exact SatisfiesM.trivial.bind fun _ _ => .pure hnext
    | ok value => exact SatisfiesM.trivial.bind fun _ _ => .pure hnext

end Treewalk
