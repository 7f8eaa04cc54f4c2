import Treewalk.Proofs.Machine.Statements
import Treewalk.Proofs.Session.Numbers

/-!
# Scripts piece by piece

A session can be given a script whole, or its top-level statements one by one, each as a
script of its own (`Session.performEach`). The heap goes from one to the next either
way; the global frame does not, since every run starts with an empty one. So the two
differ only where a statement of the whole script uses a copy that an earlier statement
left in the frame against what the scopes say by then: `Session.whole_ne_each` is an
instance. In all other scripts whose statements end normally they print the same and
stop with the same error: `Session.perform_script_iff`.
-/

namespace Treewalk

variable {program : Program}

namespace Session

/-! ## One statement after another -/

/-- Runs statements one after another, each as a script of its own, up to the first
error. -/
def performEach (limit : Nat) (host : Host) :
    Session → List Stmt → Option (Session × Report)
  | session, [] => some (session, ⟨.ok none, ""⟩)
  | session, stmt :: rest =>
    (session.perform limit host (.script ⟨[stmt]⟩)).bind fun (session, report) =>
      match report.result with
      | .error error => some (session, ⟨.error error, report.output⟩)
      | .ok _ =>
        (performEach limit host session rest).map fun (session, later) =>
          (session, ⟨later.result, report.output ++ later.output⟩)

variable {host : Host} {session session' : Session} {report : Report} {stmt : Stmt}
  {rest : List Stmt}

private theorem perform_script_iff_reports :
    (∃ limit, session.perform limit host (.script program) = some (session', report)) ↔
      ∃ heap, session' = { session with heap := heap } ∧
        (Machine.between (.start session.heap) program.stmts).Reports
          (session.context host) heap report := by
  constructor
  · rintro ⟨limit, h⟩
    obtain ⟨result, hresult, heq⟩ := Option.map_eq_some_iff.1 h
    cases heq
    refine ⟨_, rfl, _, .of_run ?_, hresult, rfl, rfl⟩
    rw [Machine.isFinal]
    exact hresult ▸ rfl
  · rintro ⟨heap, rfl, final, hfinal, hresult, houtput, rfl⟩
    obtain ⟨limit, rfl⟩ := hfinal.exists_run
    refine ⟨limit, Option.map_eq_some_iff.2 ⟨report.result, hresult, ?_⟩⟩
    obtain ⟨result, output⟩ := report
    cases houtput
    rfl

private theorem perform_mono {limit limit' : Nat} (hle : limit ≤ limit') {task : Task}
    (h : session.perform limit host task = some (session', report)) :
    session.perform limit' host task = some (session', report) := by
  obtain ⟨result, hresult, -⟩ := Option.map_eq_some_iff.1 h
  have hfinal : ((task.machine session.heap).run (session.context host) limit).isFinal =
      true := by
    rw [Machine.isFinal]
    exact hresult ▸ rfl
  rw [← h]
  simp only [perform, Machine.run_eq_of_le hle hfinal]

private theorem performEach_mono {limit limit' : Nat} (hle : limit ≤ limit')
    {stmts : List Stmt}
    (h : session.performEach limit host stmts = some (session', report)) :
    session.performEach limit' host stmts = some (session', report) := by
  induction stmts generalizing session session' report with
  | nil => exact h
  | cons stmt rest ih =>
    unfold performEach at h ⊢
    obtain ⟨⟨middle, result, output⟩, hfirst, hrest⟩ := Option.bind_eq_some_iff.1 h
    rw [perform_mono hle hfirst, Option.bind_some]
    cases result with
    | error error => exact hrest
    | ok value =>
      obtain ⟨⟨last, later⟩, hlater, heq⟩ := Option.map_eq_some_iff.1 hrest
      exact Option.map_eq_some_iff.2 ⟨(last, later), ih hlater, heq⟩

/-- What the statements report of which the first one reported so. -/
inductive EachAfter (host : Host) (rest : List Stmt) : Session → Report → Session →
  Report → Prop
  | failed {session : Session} {error : RuntimeError} {output : String} :
      EachAfter host rest session ⟨.error error, output⟩ session ⟨.error error, output⟩
  | continues {session session' : Session} {limit : Nat} {value : Option Value}
      {output : String} {later : Report}
      (each : session.performEach limit host rest = some (session', later)) :
      EachAfter host rest session ⟨.ok value, output⟩ session'
        ⟨later.result, output ++ later.output⟩

private theorem performEach_cons_iff :
    (∃ limit, session.performEach limit host (stmt :: rest) = some (session', report)) ↔
      ∃ middle first,
        (∃ limit, session.perform limit host (.script ⟨[stmt]⟩) =
          some (middle, first)) ∧ EachAfter host rest middle first session' report := by
  constructor
  · rintro ⟨limit, h⟩
    obtain ⟨⟨middle, result, output⟩, hfirst, hrest⟩ := Option.bind_eq_some_iff.1 h
    refine ⟨middle, ⟨result, output⟩, ⟨limit, hfirst⟩, ?_⟩
    cases result with
    | error error =>
      cases hrest
      exact .failed
    | ok value =>
      obtain ⟨⟨last, later⟩, hlater, heq⟩ := Option.map_eq_some_iff.1 hrest
      cases heq
      exact .continues hlater
  · rintro ⟨middle, first, ⟨limit, hfirst⟩, hrest⟩
    cases hrest with
    | failed =>
      refine ⟨limit, ?_⟩
      rw [performEach, hfirst]
      rfl
    | @continues _ limit' value output later hlater =>
      refine ⟨max limit limit', ?_⟩
      rw [performEach, perform_mono (Nat.le_max_left _ _) hfirst, Option.bind_some]
      exact Option.map_eq_some_iff.2 ⟨(session', later),
        performEach_mono (Nat.le_max_right _ _) hlater, rfl⟩

end Session

/-! ## The whole and its pieces -/

namespace Machine

/-- No top-level statement of the run ends in another way than normally. -/
def EndsNormally (ctx : Context) (start : Machine) : Prop :=
  ∀ m, Reaches ctx start m → ∀ flow rest env, m.control = .flow flow →
    m.pending = [.seq rest env] → flow = .normal

/-- Top-level code of the run never uses a copy of another statement against what the
scopes say. -/
def NeverStale (ctx : Context) (start : Machine) : Prop :=
  ∀ m own, Follows ctx start m own → ¬m.Stale ctx own

/-- The states of the run pass a test until the run has ended, within the limit. -/
def passes (ctx : Context) (test : Machine → List String → Bool) :
    Nat → Machine → List String → Bool
  | 0, m, _ => m.isFinal
  | limit + 1, m, own =>
    m.isFinal || (test m own &&
      passes ctx test limit (step ctx m) (if m.isBetween then [] else ownAfter own m))

/-- Whether the state is not one after a top-level statement that ended otherwise than
normally. -/
def flowsOn (m : Machine) (_ : List String) : Bool :=
  match m.control, m.pending with
  | .flow .normal, _ => true
  | .flow _, [.seq _ _] => false
  | _, _ => true

/-- Whether a value is the number that was read. -/
def isNumberRead (value : Value) (found : Except Cause Value) : Bool :=
  match value, found with
  | .number n, .ok (.number n') => n == n'
  | _, _ => false

/-- A test that excludes stale copies where the copies that top-level code reads are
numbers. -/
def looksFresh (ctx : Context) (m : Machine) (own : List String) : Bool :=
  m.world.frames.depth != 1 ||
    match m.control, m.pending with
    | .eval (.var _ id name) env, _ =>
      own.contains name || (m.world.frames.get? name).all fun value =>
        isNumberRead value (ctx.unframed.read m.world name id env)
    | .value _, .assign _ id name env :: _ =>
      own.contains name || (ctx.scopeSlot m.world name id env).toOption.isSome
    | _, _ => true

section Checks

variable {ctx : Context} {start m : Machine} {own : List String} {limit : Nat}

private theorem Follows.passed {test : Machine → List String → Bool}
    (h : Follows ctx start m own) (hpasses : passes ctx test limit start [] = true) :
    m.isFinal = true ∨ test m own = true := by
  -- Along the run, what is left of the check passes, unless the run has ended.
  have hleft : m.isFinal = true ∨ ∃ limit, passes ctx test (limit + 1) m own =
      true := by
    induction h with
    | start =>
      cases limit with
      | zero => exact .inl hpasses
      | succ limit => exact .inr ⟨limit, hpasses⟩
    | @step m own _ ih =>
      have hended : m.isFinal = true → (Machine.step ctx m).isFinal = true := by
        intro hfinal
        obtain ⟨result, hresult⟩ := Option.isSome_iff_exists.1 hfinal
        rw [step_of_outcome? hresult]
        exact hfinal
      rcases ih with hfinal | ⟨limit, hrest⟩
      · exact .inl (hended hfinal)
      · rcases Bool.or_eq_true_iff.1 hrest with hfinal | hrest
        · exact .inl (hended hfinal)
        · have hnext := (Bool.and_eq_true_iff.1 hrest).2
          cases limit with
          | zero => exact .inl hnext
          | succ limit => exact .inr ⟨limit, hnext⟩
  rcases hleft with hfinal | ⟨limit, hrest⟩
  · exact .inl hfinal
  · rcases Bool.or_eq_true_iff.1 hrest with hfinal | hrest
    · exact .inl hfinal
    · exact .inr (Bool.and_eq_true_iff.1 hrest).1

theorem Reaches.follows (h : Reaches ctx start m) : ∃ own, Follows ctx start m own := by
  induction h with
  | start => exact ⟨[], .start⟩
  | step _ ih =>
    obtain ⟨own, hfollows⟩ := ih
    exact ⟨_, hfollows.step⟩

private theorem endsNormally_of_passes
    (hpasses : passes ctx flowsOn limit start [] = true) :
    EndsNormally ctx start := by
  intro m hreaches flow rest env hcontrol hpending
  obtain ⟨own, hfollows⟩ := hreaches.follows
  rcases hfollows.passed hpasses with hfinal | htest
  · rw [isFinal_iff, hpending] at hfinal
    cases hfinal.2
  · unfold flowsOn at htest
    rw [hcontrol, hpending] at htest
    cases flow with
    | normal => rfl
    | _ => cases htest

theorem neverStale_of_passes
    (hpasses : passes ctx (looksFresh ctx) limit start [] = true) :
    NeverStale ctx start := by
  intro m own hfollows hstale
  cases hstale with
  | read depth foreign copy differs =>
    rcases hfollows.passed hpasses with hfinal | htest
    · cases (isFinal_iff.1 hfinal).1
    · simp only [looksFresh, depth, bne_self_eq_false, Bool.false_or, copy,
        Option.all_some, List.contains_iff_mem, Bool.or_eq_true, foreign,
        false_or] at htest
      unfold isNumberRead at htest
      split at htest
      · rename_i hread
        rw [hread, eq_of_beq htest] at differs
        exact differs rfl
      · cases htest
  | assign depth foreign copy unbound =>
    rcases hfollows.passed hpasses with hfinal | htest
    · cases (isFinal_iff.1 hfinal).2
    · simp only [looksFresh, depth, bne_self_eq_false, Bool.false_or,
        List.contains_iff_mem, Bool.or_eq_true, foreign, false_or] at htest
      obtain ⟨scope, hscope⟩ := Option.isSome_iff_exists.1 htest
      generalize hslot : ctx.scopeSlot _ _ _ _ = slot at hscope
      cases slot with
      | error cause => cases hscope
      | ok found => exact unbound found hslot

end Checks

end Machine

namespace Session

open Machine

variable {host : Host} {session session' : Session} {report : Report} {rest : List Stmt}

private theorem exists_reports_cons_iff {stmt : Stmt} {heap : Heap} {frames : Frames} :
    (∃ heap', session' = { session with heap := heap' } ∧
        (between ⟨heap, frames, ""⟩ (stmt :: rest)).Reports (session.context host)
          heap' report) ↔
      ∃ last, Delivers (session.context host) [] (alone heap frames stmt) last ∧
        ∃ heap', session' = { session with heap := heap' } ∧
          ReportsAfter (session.context host) rest last heap' report := by
  constructor
  · rintro ⟨heap', hsession, hreports⟩
    obtain ⟨last, hlast, hafter⟩ := reports_cons_iff.1 hreports
    exact ⟨last, hlast, heap', hsession, hafter⟩
  · rintro ⟨last, hlast, heap', hsession, hafter⟩
    exact ⟨heap', hsession, reports_cons_iff.2 ⟨last, hlast, hafter⟩⟩

private theorem performEach_cons_iff_alone {stmt : Stmt} :
    (∃ limit, session.performEach limit host (stmt :: rest) = some (session', report)) ↔
      ∃ last, Delivers (session.context host) []
          (alone session.heap (World.start session.heap).frames stmt) last ∧
        ∃ heap' first, ReportsAfter (session.context host) [] last heap' first ∧
          EachAfter host rest { session with heap := heap' } first session' report := by
  rw [performEach_cons_iff]
  constructor
  · rintro ⟨middle, first, hfirst, heach⟩
    obtain ⟨heap', rfl, hreports⟩ := perform_script_iff_reports.1 hfirst
    obtain ⟨last, hlast, hafter⟩ := reports_cons_iff.1 hreports
    exact ⟨last, hlast, heap', first, hafter, heach⟩
  · rintro ⟨last, hlast, heap', first, hafter, heach⟩
    exact ⟨_, first, perform_script_iff_reports.2
      ⟨heap', rfl, reports_cons_iff.2 ⟨last, hlast, hafter⟩⟩, heach⟩

private theorem reportsAfter_iff_eachAfter {heap : Heap} {frames frames' : Frames}
    {output : String} {control : Control}
    (hnormal : ∀ flow, control = .flow flow → flow = .normal)
    (hrest : control = .flow .normal → ∀ session' report,
      (∃ heap', session' = { session with heap := heap' } ∧
        (between ⟨heap, frames, ""⟩ rest).Reports (session.context host) heap' report) ↔
        ∃ limit, ({ session with heap := heap } : Session).performEach limit host rest =
        some (session', report)) : (∃ heap', session' = { session with heap := heap' } ∧
        ReportsAfter (session.context host) rest ⟨⟨heap, frames, output⟩, control, []⟩
          heap' report) ↔
      ∃ heap' first,
        ReportsAfter (session.context host) [] ⟨⟨heap, frames', output⟩, control, []⟩
          heap' first ∧
          EachAfter host rest { session with heap := heap' } first session' report := by
  constructor
  · rintro ⟨heap', rfl, hreport⟩
    cases hreport with
    | failed => exact ⟨heap, _, .failed, .failed⟩
    | stopped leaves => exact absurd (hnormal _ rfl) leaves
    | continues hlater =>
      obtain ⟨limit, heach⟩ := (hrest rfl _ _).1 ⟨heap', rfl, hlater⟩
      refine ⟨heap, _, .continues (reports_between_nil.2 ⟨rfl, rfl⟩), ?_⟩
      rw [String.append_empty]
      exact .continues heach
  · rintro ⟨heap', first, hfirst, heach⟩
    cases hfirst with
    | failed =>
      cases heach with
      | failed => exact ⟨heap, rfl, .failed⟩
    | stopped leaves => exact absurd (hnormal _ rfl) leaves
    | continues hnone =>
      obtain ⟨rfl, rfl⟩ := reports_between_nil.1 hnone
      rw [String.append_empty] at heach
      cases heach with
      | @continues _ limit _ _ later hlater =>
        obtain ⟨heap', rfl, hreports⟩ := (hrest rfl _ _).2 ⟨limit, hlater⟩
        exact ⟨heap', rfl, .continues hreports⟩

section Whole

variable {host : Host} {session : Session} {plan : List Site} {start : Machine}
  {acts : List Act} (hagrees : Agrees plan session.resolution)
  (hstart : Standing plan [.globals] acts start)
  (hnormal : EndsNormally (session.context host) start)
  (hfresh : NeverStale (session.context host) start)

include hagrees hstart hnormal hfresh

/-- From every boundary between statements on, the script and its pieces report the
same. -/
private theorem reports_iff_performEach (stmts : List Stmt) :
    ∀ {heap : Heap} {frames : Frames} {output : String} {own : List
      String} {values : Table Value}, frames.list = [⟨globalFrame, values⟩] →
      Follows (session.context host) start (between ⟨heap, frames, output⟩ stmts) own →
      ∀ session' report,
        (∃ heap', session' = { session with heap := heap' } ∧
          (between ⟨heap, frames, ""⟩ stmts).Reports (session.context host)
            heap' report) ↔
        ∃ limit, ({ session with heap := heap } : Session).performEach limit
          host stmts = some (session', report) := by
  induction stmts with
  | nil =>
    intro heap frames output own values hlist hfollows session' report
    simp only [reports_between_nil, performEach]
    constructor
    · rintro ⟨heap', rfl, rfl, rfl⟩
      exact ⟨0, rfl⟩
    · rintro ⟨limit, h⟩
      cases h
      exact ⟨heap, rfl, rfl, rfl⟩
  | cons stmt rest ih =>
    intro heap frames output own values hlist hfollows session' report
    rw [exists_reports_cons_iff, performEach_cons_iff_alone]
    refine exists_delivers_alone_iff rfl hagrees hstart hfresh hlist hfollows ?_
    intro last last' own' hlast hfollows' hstep
    obtain ⟨values', hlist'⟩ := hlast.list_of_alone hlist
    have hended := hlast.pending
    obtain @⟨heap₁, output₁, control, pending, frames₁, frames₁', hrel⟩ := hstep
    obtain rfl : pending = [] := hended
    refine reportsAfter_iff_eachAfter ?_ ?_
    · rintro flow rfl
      exact hnormal _ hfollows'.reaches flow rest globalScope rfl rfl
    · rintro rfl
      exact ih hlist' hfollows'

end Whole

/-- A script, whole or statement by statement. Where no top-level statement ends
otherwise than normally and none, outside the calls that it makes, uses a copy that an
earlier one left in the global frame against what the scopes say, the script run at once
on a fresh session ends if and only if its statements run one after another do; it
prints the same, ends the same, with the same error if there is one, and leaves the same
session. -/
theorem perform_script_iff {firstId next : NodeId} {tokens : List (Located Token)}
    {program : Program} {natives : String → Bool} {enabled : List Native}
    {globals : List String} {resolution : Resolution} {session : Session} {host : Host}
    (hparse : parse firstId tokens = (.ok program, next))
    (hresolve : program.resolve natives globals = .ok resolution)
    (hknown : ∀ id, session.resolution.SameAt resolution id)
    (hheap : session.heap = .start enabled)
    (hnormal : EndsNormally (session.context host) (.ofScript session.heap program))
    (hfresh : NeverStale (session.context host) (.ofScript session.heap program))
    (session' : Session) (report : Report) :
    (∃ limit, session.perform limit host (.script program) = some (session', report)) ↔
      ∃ limit, session.performEach limit host program.stmts =
        some (session', report) := by
  have hagrees : Agrees program.sites session.resolution := by
    intro site hsite id name hrefers
    rw [(hknown id).1]
    exact agrees_of_resolve hparse hresolve site hsite id name hrefers
  have hstart : Standing program.sites [.globals] [⟨globalScope, [], false⟩]
      (.ofScript session.heap program) :=
    .start (derives_of_parse hparse).formed (.inl (by rw [hheap]))
  rw [perform_script_iff_reports]
  exact reports_iff_performEach hagrees hstart hnormal hfresh program.stmts rfl .start
    session' report

/-- A session that has read its first text knows what is resolved about it, and its heap
is fresh. -/
theorem known_of_prepare {settings : RunSettings} {natives : List Native}
    {source : String}
    (h : (start settings natives).prepare source = (session, .ok program)) :
    ∃ tokens next resolution, parse 0 tokens = (.ok program, next) ∧
      program.resolve (Native.enabled natives) (start settings natives).globalNames =
        .ok resolution ∧
      (∀ id, session.resolution.SameAt resolution id) ∧
        session.heap = .start natives := by
  obtain ⟨next, resolution, hread, hresolve, rfl⟩ := prepare_eq_ok_iff.1 h
  obtain ⟨tokens, -, hparse⟩ := Source.read_eq_ok_iff.1 hread
  refine ⟨tokens, next, resolution, hparse, hresolve, fun id => ⟨?_, ?_⟩, rfl⟩
  · rw [Resolution.distance?_merge]
    rfl
  · rw [Resolution.isNativeCall_merge]
    rfl

/-- `bump` changes a variable of which the global frame has a copy; `y` is read and
changed through a copy that is up to date. The last statement but one divides by
zero. -/
def bumpSource : String :=
  "var x = 1; var y = x; func bump() = { x = x + 1; return x; } print(bump());
    y = y + 10; print(y); print(bump()); print(1 / (y - 11)); print(7);"

/-- The place of the error in a report. -/
def errorSpan? (report : Report) : Option Span :=
  match report.result with
  | .error error => error.span
  | .ok _ => none

theorem perform_script_iff_bump :
    ∃ session program, (start Settings.default.run Native.all).prepare bumpSource =
        (session, .ok program) ∧
      EndsNormally (session.context idleHost) (.ofScript session.heap program) ∧
      NeverStale (session.context idleHost) (.ofScript session.heap program) ∧
      ∃ session' report, report.output = "2113" ∧ errorSpan? report = some ⟨123, 135⟩ ∧
        (∃ limit, session.perform limit idleHost (.script program) =
          some (session', report)) ∧
        ∃ limit, session.performEach limit idleHost program.stmts =
          some (session', report) := by
  have hfacts :
    (((start Settings.default.run Native.all).prepare bumpSource).2.toOption.map
      fun program =>
        let session := ((start Settings.default.run Native.all).prepare bumpSource).1
        let ctx := session.context idleHost
        let script := Machine.ofScript session.heap program
        (script.passes ctx flowsOn 90 [], script.passes ctx (looksFresh ctx) 90 [],
          (session.perform 90 idleHost (.script program)).map fun (_, report) =>
            (report.output, errorSpan? report))) =
      some (true, true, some ("2113", some ⟨123, 135⟩)) := by
    decide +kernel
  generalize hprepare : (start Settings.default.run Native.all).prepare bumpSource =
    prepared at hfacts
  obtain ⟨session, _ | program⟩ := prepared
  · cases hfacts
  · simp only [Except.toOption, Option.map_some, Option.some.injEq, Prod.mk.injEq]
      at hfacts
    obtain ⟨hflows, hlooks, hperform⟩ := hfacts
    obtain ⟨⟨session', report⟩, hperform, hreport⟩ := Option.map_eq_some_iff.1 hperform
    obtain ⟨houtput, hspan⟩ := Prod.mk.inj hreport
    have hnormal := endsNormally_of_passes hflows
    have hfresh := neverStale_of_passes hlooks
    obtain ⟨tokens, next, resolution, hparse, hresolve, hknown, hheap⟩ :=
      known_of_prepare hprepare
    have hagree :=
      perform_script_iff hparse hresolve hknown hheap hnormal hfresh session' report
    exact ⟨session, program, rfl, hnormal, hfresh, session', report, houtput, hspan,
      ⟨90, hperform⟩, hagree.1 ⟨90, hperform⟩⟩

/-- `f` changes `x`, and the script goes on to read the copy of `x` that its declaration
left. -/
def staleSource : String :=
  "var x = 1; func f() = { x = 2; } f(); print(x);"

/-- Without a look at copies the whole and its pieces differ: a script without an entry
point that declares no name of a capability and whose statements end normally prints
what its first statement left in the global frame, its pieces print what the call has
made of it. -/
theorem whole_ne_each :
    ∃ session program, (start Settings.default.run Native.all).prepare staleSource =
        (session, .ok program) ∧
      program.hasEntryPoint = false ∧
      (∀ name ∈ program.stmts.flatMap Stmt.declared,
        name ∉ session.natives.map Native.name) ∧
      EndsNormally (session.context idleHost) (.ofScript session.heap program) ∧
      (session.perform 30 idleHost (.script program)).map (fun done => done.2.output) =
        some "1" ∧
      (session.performEach 30 idleHost program.stmts).map (fun done => done.2.output) =
        some "2" := by
  have hfacts :
    (((start Settings.default.run Native.all).prepare staleSource).2.toOption.map
      fun program =>
        let session := ((start Settings.default.run Native.all).prepare staleSource).1
        let ctx := session.context idleHost
        (program.hasEntryPoint,
          decide (∀ name ∈ program.stmts.flatMap Stmt.declared, name ∉
            session.natives.map Native.name),
          (Machine.ofScript session.heap program).passes ctx flowsOn 30 [],
          (session.perform 30 idleHost (.script program)).map
            (fun done => done.2.output),
          (session.performEach 30 idleHost program.stmts).map
            (fun done => done.2.output))) =
      some (false, true, true, some "1", some "2") := by
    decide +kernel
  generalize hprepare : (start Settings.default.run Native.all).prepare staleSource =
    prepared at hfacts
  obtain ⟨session, _ | program⟩ := prepared
  · cases hfacts
  · simp only [Except.toOption, Option.map_some, Option.some.injEq, Prod.mk.injEq,
      decide_eq_true_eq] at hfacts
    obtain ⟨hentry, hnames, hflows, hwhole, heach⟩ := hfacts
    exact ⟨session, program, rfl, hentry, hnames, endsNormally_of_passes hflows,
      hwhole, heach⟩

end Session

end Treewalk
