import Treewalk.Proofs.Scope.LayoutRun
import Treewalk.Proofs.Session.ErrorPlaces

/-!
# What the errors of a session point at

The place of an error is a part of a text, but it does not say of which. An error that
is found before anything runs is at its own text. A run may call functions and methods
that earlier texts have declared, and what fails in their bodies is reported at its
place in the text of the declaration, which may be longer than the text that was
entered.

Only bodies outlive the run of their text, and the class declarations whose methods they
are (`Spot.Stays`). So between two runs the heap is laid out over what has stayed of the
texts before (`Session.layout`), and during a run all code of the text that was entered
is added.

* `Session.keeps_of_take` — a turn leaves the heap laid out over what stays.
* `Session.errors_point` — where the errors of all turns point.
-/

namespace Treewalk

open List

variable {around : List Origin} {source : String} {past : List Answer} {span : Span}
  {program : Program}

/-! ## What stays -/

/-- The code may outlive the run of its text: it is a declaration, or it stands in a
body. -/
def Spot.Stays (spot : Spot) : Prop :=
  (∃ stmt, spot.piece = .stmt stmt) ∨ ∃ decl, .call decl ∈ spot.around

/-- Code inside a body stands in a body. -/
theorem Inward.called : Inward fun around _ => ∃ decl, Origin.call decl ∈ around where
  part h _ := h
  operand h _ := h
  branch h _ := h
  block h _ := h.imp fun _ hdecl => mem_cons_of_mem _ hdecl
  function _ _ := ⟨_, mem_cons_self⟩
  method _ _ _ := ⟨_, mem_cons_self⟩

private theorem FunctionDecl.stays_of_mem_spots {decl : FunctionDecl} {spot : Spot}
    (h : spot ∈ decl.spots around) :
    spot.Stays :=
  .inr (Inward.called.spots_function (fun _ _ => ⟨decl, mem_cons_self⟩) spot h)

private theorem FunctionDecl.stays_of_mem_methodSpots {methods : List FunctionDecl}
    {spot : Spot} (h : spot ∈ FunctionDecl.methodSpots around methods) : spot.Stays :=
  .inr (Inward.called.methodSpots (fun method _ _ _ => ⟨method, mem_cons_self⟩) spot h)

namespace Layout

/-- One layout has what stays of the other. -/
structure Retains (layout layout' : Layout) : Prop where
  spot : ∀ spot, layout.spot spot → spot.Stays → layout'.spot spot
  sheltered : layout'.sheltered → layout.sheltered
  declared : ∀ decl superclass scope, layout.declared decl superclass scope →
    layout'.declared decl superclass scope

namespace Retains

variable {layout layout' : Layout} {log : History}

variable (h : layout.Retains layout')

include h

private theorem functionFrom {function : Function}
    (hfrom : layout.FunctionFrom log function around) :
    layout'.FunctionFrom log function around where
  sees := hfrom.sees
  spots spot hspot :=
    h.spot spot (hfrom.spots spot hspot) (FunctionDecl.stays_of_mem_spots hspot)
  params := hfrom.params
  bound := hfrom.bound

private theorem classFrom {cls : Class} {decl : ClassDecl} {closure : ScopeId}
    (hfrom : layout.ClassFrom log cls decl around closure) :
    layout'.ClassFrom log cls decl around closure where
  name := hfrom.name
  spot := hfrom.spot.imp fun _ hspot => h.spot _ hspot (.inl ⟨_, rfl⟩)
  spots spot hspot :=
    h.spot spot (hfrom.spots spot hspot) (FunctionDecl.stays_of_mem_methodSpots hspot)
  bodied := hfrom.bodied
  superclass := hfrom.superclass
  methods := hfrom.methods
  initializer := hfrom.initializer
  closures := hfrom.closures
  sees := hfrom.sees
  super := hfrom.super

private theorem hasClass {cls : Class} (hcls : layout.HasClass log cls) :
    layout'.HasClass log cls := by
  intro ancestor hancestor
  obtain ⟨decl, around, closure, hfrom⟩ := hcls ancestor hancestor
  exact ⟨decl, around, closure, h.classFrom hfrom⟩

private theorem hasValue {value : Value} (hvalue : layout.HasValue log value) :
    layout'.HasValue log value := by
  cases value with
  | callable callable =>
    cases callable with
    | function function =>
      obtain ⟨around, hfrom⟩ := hvalue
      exact ⟨around, h.functionFrom hfrom⟩
    | cls cls => exact h.hasClass hvalue
    | _ => trivial
  | cls cls => exact h.hasClass hvalue
  | inst inst => exact ⟨h.hasClass hvalue.1, hvalue.2⟩
  | _ => trivial

private theorem scopeSound {scope : ScopeId} {origin : Origin}
    (hsound : layout.ScopeSound log scope origin) :
    layout'.ScopeSound log scope origin := by
  cases origin with
  | receiver decl =>
    obtain ⟨inst, hthis, hsuper, hholder⟩ := hsound
    exact ⟨inst, hthis, hsuper, fun hsheltered => hholder (h.sheltered hsheltered)⟩
  | superclass decl =>
    obtain ⟨cls, hsuper, hthis, hdeclared⟩ := hsound
    exact ⟨cls, hsuper, hthis, h.declared _ _ _ hdeclared⟩
  | _ => exact hsound

private theorem keeps {origins : List Origin} {world : World}
    (hworld : layout.Keeps origins world) :
    layout'.Keeps origins world where
  layered := hworld.layered
  size := hworld.size
  root := hworld.root
  scopes scope origin horigin := h.scopeSound (hworld.scopes scope origin horigin)
  values := hworld.values.mono fun _ hvalue => h.hasValue hvalue

end Retains

end Layout

/-! ## Places -/

/-- The answer shows the program that its text spells. -/
def Answer.Shows (answer : Answer) : Prop :=
  ∃ n, answer.parsed = (Source.read n answer.turn.source).1.toOption

/-- The answer is to a turn that ran the text, and the code stays after that. -/
def Answer.Leaves (answer : Answer) (spot : Spot) : Prop :=
  answer.turn.use ≠ .prepare ∧ ∃ program, answer.parsed = some program ∧
    spot ∈ program.spots ∧ spot.Stays

/-- Where an error points: at a place of the text that was entered, or, in a run, at an
expression in the body of a function or method that an earlier text has declared. -/
inductive PointsTo (past : List Answer) (source : String) : Error → Span → Prop where
  | here {error : Error} {span : Span} (start_le : span.start ≤ source.utf8ByteSize)
      (stop_le : span.stop ≤ source.utf8ByteSize + 1) : PointsTo past source error span
  | earlier {cause : Cause} {answer : Answer} {program : Program} {expr : Expr}
      {around : List Origin} {decl : FunctionDecl} (mem : answer ∈ past)
      (ran : answer.turn.use ≠ .prepare) (parsed : answer.parsed = some program)
      (spot : ⟨.expr expr, around⟩ ∈ program.spots) (body : .call decl ∈ around)
      (inside : expr.span.Inside answer.turn.source) :
      PointsTo past source (.runtime ⟨cause, some expr.span⟩) expr.span

private theorem Grammar.stopOf_le_of_tokenize {tokens : List (Located Token)}
    (h : tokenize source = .ok tokens) :
    stopOf tokens ≤ source.utf8ByteSize := by
  unfold stopOf
  cases hlast : tokens.getLast? with
  | none => exact Nat.zero_le _
  | some token =>
    exact ((spaced_of_tokenize h).within token (mem_of_getLast? hlast)).inside

private theorem Span.Within.pointsTo {error : Error} (h : span.Within source) :
    PointsTo past source error span :=
  .here (Nat.le_trans (Nat.le_of_lt h.nonempty) h.inside) (Nat.le_succ_of_le h.inside)

private theorem ReadFails.pointsTo {source : String} {error : Error}
    (h : ReadFails source error) (hspan : error.span? = some span) :
    PointsTo past source error span := by
  cases h with
  | lexer within =>
    cases hspan
    exact within.pointsTo
  | token scanned mem within =>
    cases hspan
    exact within.pointsTo
  | ended scanned stops =>
    cases hspan
    have hstop := Grammar.stopOf_le_of_tokenize scanned
    rw [← stops] at hstop
    exact .here hstop (Nat.succ_le_succ hstop)
  | superclass scanned mem within =>
    cases hspan
    exact within.pointsTo

theorem Answer.Shows.read {answer : Answer} (h : answer.Shows)
    (hparsed : answer.parsed = some program) :
    ∃ n next, Source.read n answer.turn.source = (.ok program, next) := by
  obtain ⟨n, hshows⟩ := h
  rw [hparsed] at hshows
  generalize hread : Source.read n answer.turn.source = found at hshows
  obtain ⟨_ | parsed, next⟩ := found <;> cases hshows
  exact ⟨n, next, hread⟩

namespace Session

/-- What a run takes its code from: what earlier turns have left, and the code that is
run. -/
def layout (past : List Answer) (code : List Spot) : Layout where
  spot spot := (∃ answer ∈ past, answer.Leaves spot) ∨ spot ∈ code
  sheltered := False
  declared _ _ _ := True

variable {past : List Answer} {limit : Nat} {session session' : Session} {turn : Turn}
  {answer : Answer}

private theorem proper_layout (hpast : ∀ answer ∈ past, answer.Shows) {n next : NodeId}
    (hread : Source.read n source = (.ok program, next)) :
    (layout past program.spots).Proper := by
  refine ⟨fun spot hspot name hname => ?_, fun spot hspot => ?_, False.elim⟩
  · rcases hspot with ⟨answer, hanswer, -, program, hparsed, hspot, -⟩ | hspot
    · obtain ⟨_, _, hread⟩ := (hpast answer hanswer).read hparsed
      exact Source.not_reserved_of_read hread hspot hname
    · exact Source.not_reserved_of_read hread hspot hname
  · rcases hspot with ⟨_, _, -, program, -, hspot, -⟩ | hspot
    · exact Program.paired_of_mem_spots hspot
    · exact Program.paired_of_mem_spots hspot

private theorem retains_layout {code : List Spot}
    (hcode : ∀ spot ∈ code, spot.Stays → answer.Leaves spot) :
    (layout past code).Retains (layout (past ++ [answer]) []) := by
  refine ⟨fun spot hspot hstays => ?_, id, fun _ _ _ => id⟩
  rcases hspot with ⟨other, hother, hleaves⟩ | hspot
  · exact .inl ⟨other, mem_append_left _ hother, hleaves⟩
  · exact .inl
      ⟨answer, mem_append_right _ (mem_singleton_self _), hcode spot hspot hstays⟩

private theorem pointsTo_of_place (hpast : ∀ answer ∈ past, answer.Shows)
    {n next : NodeId} (hread : Source.read n source = (.ok program, next))
    {cause : Cause} (h : (layout past program.spots).Place span) :
    PointsTo past source (.runtime ⟨cause, some span⟩) span := by
  obtain ⟨expr, around, hspot, rfl⟩ := h
  rcases hspot with ⟨answer, hanswer, hran, program, hparsed, hspot, hstays⟩ | hspot
  · obtain ⟨_, _, hread⟩ := (hpast answer hanswer).read hparsed
    rcases hstays with ⟨_, hstmt⟩ | ⟨decl, hdecl⟩
    · cases hstmt
    · exact .earlier hanswer hran hparsed hspot hdecl
        (Source.inside_of_read hread hspot)
  · have hinside := Source.inside_of_read hread hspot
    exact .here hinside.start_le (Nat.le_succ_of_le hinside.stop_le)

/-- One turn: its error points where errors point, and the heap stays laid out over what
is left. -/
theorem keeps_of_take (hpast : ∀ answer ∈ past, answer.Shows)
    (hheap : ∃ origins, (layout past []).Keeps origins (World.start session.heap))
    (htake : session.take limit turn = some (session', answer)) :
    (∀ error span, answer.result = .error error → error.span? = some span →
      PointsTo past answer.turn.source error span) ∧
      ∃ origins, (layout (past ++ [answer]) []).Keeps origins
        (World.start session'.heap) := by
  obtain ⟨rfl, hparsed, htaken⟩ := taken_of_take htake
  obtain ⟨origins, hkeeps⟩ := hheap
  have hidle : (layout (past ++ [answer]) []).Keeps origins
      (World.start session.heap) :=
    (retains_layout fun _ hspot => absurd hspot not_mem_nil).keeps hkeeps
  generalize hresult : answer.result = result at htaken
  cases htaken with
  | refused hprepare =>
    refine ⟨fun error span herror hspan => ?_, origins, ?_⟩
    · cases herror
      exact (readFails_of_prepare hprepare).pointsTo hspan
    · rw [(kept_of_prepare hprepare).2.2]
      exact hidle
  | read hprepare =>
    refine ⟨nofun, origins, ?_⟩
    rw [(kept_of_prepare hprepare).2.2]
    exact hidle
  | @ran prepared program make m result hprepare hasks hruns hends =>
    obtain ⟨next, _, hread, -, -⟩ := prepare_eq_ok_iff.1 hprepare
    -- the run starts over what earlier turns have left, with all code of the text added
    have hwhole : (layout past []).Retains (layout past program.spots) :=
      ⟨fun spot hspot _ => hspot.imp_right fun hnone => absurd hnone not_mem_nil, id,
        fun _ _ _ => id⟩
    have hstart : (layout past program.spots).Governs origins
        ((make program).machine prepared.heap) := by
      rw [(kept_of_prepare hprepare).2.2]
      exact Layout.governs_machine (hwhole.keeps hkeeps)
        (fun _ hspot => .inr hspot) hasks
    have hreaches : Machine.Reaches (prepared.context answer.turn.host)
        ((make program).machine prepared.heap) m := by
      rw [← hruns]
      exact .run _ _ _
    obtain ⟨origins', hend, -⟩ :=
      Layout.exists_governs_of_reaches (proper_layout hpast hread)
      (fun _ _ _ => trivial) hstart hreaches
    refine ⟨fun error span herror hspan => ?_, origins', ?_⟩
    · obtain ⟨world, control, pending⟩ := m
      cases result with
      | ok value => cases herror
      | error failure =>
        cases herror
        have hfail : control = .fail failure := by
          unfold Machine.outcome? at hends
          split at hends <;> cases hends
          rename_i hmachine
          cases hmachine
          rfl
        subst hfail
        obtain ⟨cause, place⟩ := failure
        cases hspan
        exact pointsTo_of_place hpast hread (hend.control.2 span rfl)
    · -- of the code that was added, only what stays is needed any longer
      refine (retains_layout fun spot hspot hstays => ?_).keeps hend.world.restart
      refine ⟨fun huse => ?_, program, ?_, hspot, hstays⟩
      · rw [huse] at hasks
        cases hasks
      · rw [hparsed, hread]
        rfl

private theorem pointsTo_of_play (turns : List Turn) :
    ∀ {session session' : Session} {past answers : List Answer},
    (∀ answer ∈ past, answer.Shows) →
    (∃ origins, (layout past []).Keeps origins (World.start session.heap)) →
    session.play limit turns = some (session', answers) →
    ∀ earlier answer later, answers = earlier ++ answer :: later →
      ∀ error span, answer.result = .error error → error.span? = some span →
        PointsTo (past ++ earlier) answer.turn.source error span := by
  induction turns with
  | nil =>
    intro session session' past answers _ _ hplay earlier answer later hsplit
    cases hplay
    cases earlier <;> cases hsplit
  | cons turn rest ih =>
    intro session session' past answers hpast hheap hplay earlier answer later hsplit
    obtain ⟨⟨middle, first⟩, htake, hplayed⟩ := Option.bind_eq_some_iff.1 hplay
    obtain ⟨⟨last, answers'⟩, hrest, heq⟩ := Option.map_eq_some_iff.1 hplayed
    cases heq
    obtain ⟨hfirst, hheap'⟩ := keeps_of_take hpast hheap htake
    cases earlier with
    | nil =>
      cases hsplit
      rw [append_nil]
      exact hfirst
    | cons other earlier =>
      -- the first answer is past for the turns that follow
      obtain ⟨rfl, hbehind⟩ := List.cons.inj hsplit
      have hpast' : ∀ answer ∈ past ++ [first], answer.Shows := by
        intro answer hanswer
        rcases mem_append.1 hanswer with hanswer | hanswer
        · exact hpast answer hanswer
        · obtain rfl := mem_singleton.1 hanswer
          obtain ⟨rfl, hparsed, -⟩ := taken_of_take htake
          exact ⟨_, hparsed⟩
      have hlater := ih hpast' hheap' hrest earlier answer later hbehind
      rw [append_assoc] at hlater
      exact hlater

/-- What errors point at, in every history of turns: an error with a place is at a place
of the text that was entered in the same turn, or it is an error of the run at an
expression in the body of a function or method that the text of an earlier turn
declared. -/
theorem errors_point {settings : RunSettings} {natives : List Native}
    {turns : List Turn} {answers : List Answer}
    (hplay : (start settings natives).play limit turns = some (session, answers))
    {past later : List Answer} (hsplit : answers = past ++ answer :: later)
    {error : Error} {span : Span} (hresult : answer.result = .error error)
    (hspan : error.span? = some span) :
    PointsTo past answer.turn.source error span := by
  have hnone : ∀ answer ∈ ([] : List Answer), answer.Shows :=
    fun _ hanswer => absurd hanswer not_mem_nil
  have hheap : (layout [] []).Keeps [.globals]
    (World.start (start settings natives).heap) := Layout.keeps_start natives
  exact pointsTo_of_play turns hnone ⟨_, hheap⟩ hplay past answer later hsplit error
    span hresult hspan

/-- A line that declares a function, and a shorter one that calls it. -/
def halfTurns : List Turn :=
  [⟨.line, "func half(n) = { return n / 0; }", idleHost⟩, ⟨.line, "half(1);", idleHost⟩]

/-- The text of an answer, and its error. -/
def errorOf (answer : Answer) : String × Option Error :=
  (answer.turn.source,
    match answer.result with
    | .error error => some error
    | .ok _ => none)

private theorem exists_answers_halfTurns :
    ∃ session first second,
      (start Settings.default.run Native.all).play 40 halfTurns =
        some (session, [first, second]) ∧
      second.turn.source = "half(1);" ∧
      second.result = .error (.runtime ⟨.divisionByZero, some ⟨24, 29⟩⟩) := by
  have hplayed : (((start Settings.default.run Native.all).play 40 halfTurns).map
    fun played => played.2.map errorOf) =
      some [("func half(n) = { return n / 0; }", none),
        ("half(1);", some (.runtime ⟨.divisionByZero, some ⟨24, 29⟩⟩))] := by
          decide +kernel
  obtain ⟨⟨session, answers⟩, hplay, herrors⟩ := Option.map_eq_some_iff.1 hplayed
  obtain ⟨first, rest, rfl, -, hrest⟩ := map_eq_cons_iff.1 herrors
  obtain ⟨second, rest, rfl, hsecond, hrest⟩ := map_eq_cons_iff.1 hrest
  obtain rfl := map_eq_nil_iff.1 hrest
  obtain ⟨hsource, herror⟩ := Prod.mk.inj hsecond
  refine ⟨session, first, second, hplay, hsource, ?_⟩
  split at herror
  · rename_i hresult
    cases herror
    exact hresult
  · cases herror

theorem errors_point_halfTurns :
    ∃ session first second,
      (start Settings.default.run Native.all).play 40 halfTurns =
        some (session, [first, second]) ∧
      second.result = .error (.runtime ⟨.divisionByZero, some ⟨24, 29⟩⟩) ∧
      PointsTo [first] second.turn.source (.runtime ⟨.divisionByZero, some ⟨24, 29⟩⟩)
        ⟨24, 29⟩ := by
  obtain ⟨session, first, second, hplay, -, hresult⟩ := exists_answers_halfTurns
  have hsplit : [first, second] = [first] ++ second :: [] := rfl
  exact ⟨session, first, second, hplay, hresult, errors_point hplay hsplit hresult rfl⟩

/-- The error in a body that an earlier line declared begins behind the end of the line
that was entered. -/
theorem error_beyond_entered_line :
    ∃ session first second,
      (start Settings.default.run Native.all).play 40 halfTurns =
        some (session, [first, second]) ∧
      ∃ error span, second.result = .error error ∧ error.span? = some span ∧
        ¬span.start ≤ second.turn.source.utf8ByteSize := by
  obtain ⟨session, first, second, hplay, hsource, hresult⟩ := exists_answers_halfTurns
  refine ⟨session, first, second, hplay, _, ⟨24, 29⟩, hresult, rfl, ?_⟩
  rw [hsource]
  decide

end Session

end Treewalk
