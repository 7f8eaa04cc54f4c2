import Treewalk.Proofs.Tree.Drawing
import Treewalk.Session

/-!
# Histories of a session

A session is asked for one thing after another: to evaluate a line, to run a program, or
only to read a text and take in what is resolved about it. A `Turn` is one request, an
`Answer` what comes back, and `Session.play` takes turns in order. Every turn reads its
text first, and this alone decides about the numbers of nodes and what is known of them;
a run can change the heap only (`Session.take_cases`).
-/

namespace Treewalk

/-- What a turn asks for. -/
inductive Use where
  /-- Evaluate a lone expression, run anything else. -/
  | line
  /-- Run from the entry point if there is one. -/
  | run
  /-- Run nothing. -/
  | prepare
deriving DecidableEq

/-- What is to be run, unless nothing is. -/
def Use.task? : Use → Option (Program → Task)
  | line => some .ofLine
  | run => some .run
  | prepare => none

/-- One request to a session, with what the world outside answers meanwhile. -/
structure Turn where
  use : Use
  source : String
  host : Host

/-- What comes back from a turn. -/
structure Answer where
  turn : Turn
  /-- The program that the text spells, if it spells one. -/
  parsed : Option Program
  result : Except Error (Option Value)
  output : String
  /-- The global names after the turn. -/
  globals : List String

namespace Session

/-- Takes one turn; there is no answer if its run does not end within the limit. -/
def take (limit : Nat) (session : Session) (turn : Turn) : Option (Session × Answer) :=
  let parsed := (Source.read session.nextId turn.source).1.toOption
  let outcome :=
    match turn.use.task? with
    | none =>
      let (session, result) := session.prepare turn.source
      some (session, result.map fun _ => none, "")
    | some task => session.submit limit turn.host task turn.source
  outcome.map fun (session, result, output) =>
    (session, ⟨turn, parsed, result, output, session.globalNames⟩)

/-- Takes turns in order; there are no answers if one of the runs does not end. -/
def play (limit : Nat) : Session → List Turn → Option (Session × List Answer)
  | session, [] => some (session, [])
  | session, turn :: rest =>
    (session.take limit turn).bind fun (session, answer) =>
      (session.play limit rest).map fun (session, answers) =>
        (session, answer :: answers)

end Session

/-! ## Reading -/

namespace Source

variable {n next : NodeId} {source : String} {program : Program}

theorem read_eq_ok_iff :
    read n source = (.ok program, next) ↔
      ∃ tokens, tokenize source = .ok tokens ∧
        parse n tokens = (.ok program, next) := by
  unfold read
  constructor
  · intro h
    split at h
    · cases h
    · rename_i tokens htokens
      split at h
      · cases h
      · rename_i hparse
        cases h
        exact ⟨tokens, htokens, hparse⟩
  · rintro ⟨tokens, htokens, hparse⟩
    simp only [htokens, hparse]

theorem le_next_read (n : NodeId) (source : String) : n ≤ (read n source).2 := by
  unfold read
  split
  · exact Nat.le_refl n
  · rename_i tokens _
    have hparse := le_next_parse n tokens
    split <;> (rename_i heq; rwa [heq] at hparse)

end Source

namespace Session

variable {session session' : Session} {source : String} {program : Program} {e : Error}

/-! ## Preparing -/

/-- A text that is taken in: its program is derived from the next number on, and what is
resolved about it is merged. -/
theorem prepare_eq_ok_iff :
    session.prepare source = (session', .ok program) ↔
      ∃ next resolution, Source.read session.nextId source = (.ok program, next) ∧
        program.resolve (Native.enabled session.natives) session.globalNames =
          .ok resolution ∧
        session' =
          { session with
            nextId := next
            resolution := session.resolution.merge resolution } := by
  unfold prepare
  constructor
  · intro h
    generalize hread : Source.read session.nextId source = found at h
    obtain ⟨result, next⟩ := found
    cases result with
    | error e => cases h
    | ok parsed =>
      simp only at h
      split at h
      · cases h
      · rename_i resolution hresolve
        cases h
        exact ⟨next, resolution, rfl, hresolve, rfl⟩
  · rintro ⟨next, resolution, hread, hresolve, rfl⟩
    have hresolve' : program.resolve (Native.enabled session.natives)
        ({ session with nextId := next } : Session).globalNames = .ok resolution :=
          hresolve
    simp only [hread, hresolve']

/-- A text that is not taken in only uses up numbers. -/
theorem eq_of_prepare_error (h : session.prepare source = (session', .error e)) :
    session' = { session with nextId := (Source.read session.nextId source).2 } := by
  unfold prepare at h
  generalize Source.read session.nextId source = found at h ⊢
  obtain ⟨result, next⟩ := found
  cases result with
  | error e =>
    cases h
    rfl
  | ok parsed =>
    simp only at h
    split at h
    · cases h
      rfl
    · cases h

theorem nextId_prepare (session : Session) (source : String) :
    (session.prepare source).1.nextId = (Source.read session.nextId source).2 := by
  generalize h : session.prepare source = prepared
  obtain ⟨session', result⟩ := prepared
  cases result with
  | error e => rw [eq_of_prepare_error h]
  | ok program =>
    obtain ⟨next, resolution, hread, -, rfl⟩ := prepare_eq_ok_iff.1 h
    rw [hread]

/-- Settings, capabilities and heap are not for reading. -/
theorem kept_of_prepare {result : Except Error Program}
    (h : session.prepare source = (session', result)) :
    session'.settings = session.settings ∧ session'.natives = session.natives ∧
      session'.heap = session.heap := by
  cases result with
  | error e =>
    rw [eq_of_prepare_error h]
    exact ⟨rfl, rfl, rfl⟩
  | ok program =>
    obtain ⟨_, _, -, -, rfl⟩ := prepare_eq_ok_iff.1 h
    exact ⟨rfl, rfl, rfl⟩

/-! ## Turns -/

variable {limit : Nat} {turn : Turn} {answer : Answer}

/-- What becomes of a turn: its text is refused, or only read, or its run comes to an
end. -/
inductive Taken (limit : Nat) (session : Session) (turn : Turn) : Session →
  Except Error (Option Value) → Prop where
  | refused {prepared : Session} {error : Error}
      (prepares : session.prepare turn.source = (prepared, .error error)) :
      Taken limit session turn prepared (.error error)
  | read {prepared : Session} {program : Program}
      (prepares : session.prepare turn.source = (prepared, .ok program))
      (idle : turn.use.task? = none) : Taken limit session turn prepared (.ok none)
  | ran {prepared : Session} {program : Program} {make : Program → Task} {m : Machine}
      {result : Except RuntimeError (Option Value)}
        (prepares : session.prepare turn.source = (prepared, .ok program))
      (asks : turn.use.task? = some make)
      (runs : ((make program).machine prepared.heap).run (prepared.context turn.host)
        limit = m)
      (ends : m.outcome? = some result) :
      Taken limit session turn { prepared with heap := m.world.heap }
        (result.mapError .runtime)

theorem taken_of_take (h : session.take limit turn = some (session', answer)) :
    answer.turn = turn ∧
      answer.parsed = (Source.read session.nextId turn.source).1.toOption ∧
      Taken limit session turn session' answer.result := by
  unfold take at h
  obtain ⟨⟨session'', result, output⟩, houtcome, heq⟩ := Option.map_eq_some_iff.1 h
  cases heq
  refine ⟨rfl, rfl, ?_⟩
  split at houtcome
  · rename_i hidle
    generalize hprepare : session.prepare turn.source = prepared at houtcome
    obtain ⟨prepared, _ | program⟩ := prepared
    · cases houtcome
      exact .refused hprepare
    · cases houtcome
      exact .read hprepare hidle
  · rename_i make hmake
    unfold submit at houtcome
    split at houtcome
    · rename_i hprepare
      cases houtcome
      exact .refused hprepare
    · rename_i prepared program hprepare
      obtain ⟨⟨performed, report⟩, hperform, heq⟩ := Option.map_eq_some_iff.1 houtcome
      obtain ⟨result, hends, heq'⟩ := Option.map_eq_some_iff.1 hperform
      cases heq'
      cases heq
      exact .ran hprepare hmake rfl hends

/-- A turn prepares its text, and a run changes the heap at most. -/
theorem take_cases (h : session.take limit turn = some (session', answer)) :
    answer.parsed = (Source.read session.nextId turn.source).1.toOption ∧
      ∃ heap, session' = { (session.prepare turn.source).1 with heap := heap } := by
  obtain ⟨-, hparsed, htaken⟩ := taken_of_take h
  refine ⟨hparsed, session'.heap, ?_⟩
  generalize answer.result = result at htaken
  cases htaken with
  | refused hprepare => rw [hprepare]
  | read hprepare => rw [hprepare]
  | ran hprepare => rw [hprepare]

end Session

end Treewalk
