import Treewalk.Proofs.Session.Renaming

/-!
# Turns that run nothing

A turn is silent if it only prepares a text, or if its text cannot be read or resolved.
All that a silent turn can leave behind are used-up numbers and knowledge about nodes
that nothing ever runs. So a history and the same history without its silent turns stay
tied (`Session.Tied`), by a renaming that can be told beforehand from the texts alone
(`renumbering`), and every turn that is left gets the same answer
(`silent_turns_invisible`).
-/

namespace Treewalk

/-! ## Silent turns -/

/-- Whether an error is found before anything runs. -/
def Error.isStatic : Error → Bool
  | lexer .. => true
  | parser .. => true
  | resolve .. => true
  | _ => false

/-- Whether the turn runs nothing. -/
def Turn.isSilent (turn : Turn) : Bool :=
  turn.use.task?.isNone || !Source.isAccepted turn.source

private theorem Source.isStatic_of_read {n next : NodeId} {source : String} {e : Error}
    (h : read n source = (.error e, next)) : e.isStatic = true := by
  unfold read at h
  split at h
  · cases h
    rfl
  · split at h
    · cases h
      rfl
    · cases h

namespace Session

variable {session session' : Session} {source : String} {e : Error}

private theorem isStatic_of_prepare
    (h : session.prepare source = (session', .error e)) :
    e.isStatic = true := by
  unfold prepare at h
  generalize hread : Source.read session.nextId source = found at h
  obtain ⟨_ | program, next⟩ := found
  · cases h
    exact Source.isStatic_of_read hread
  · simp only at h
    split at h
    · cases h
      rfl
    · cases h

private theorem take_of_isSilent (session : Session) (limit : Nat) {turn : Turn}
    (h : turn.isSilent = true) :
    ∃ answer, session.take limit turn = some ((session.prepare turn.source).1, answer) ∧
      answer.turn = turn := by
  unfold take submit
  split
  · exact ⟨_, rfl, rfl⟩
  · rename_i task htask
    have hrefused : Source.isAccepted turn.source = false := by
      simpa [Turn.isSilent, htask] using h
    have hok := session.isOk_prepare turn.source
    generalize session.prepare turn.source = prepared at hok ⊢
    obtain ⟨session', _ | program⟩ := prepared
    · exact ⟨_, rfl, rfl⟩
    · rw [hrefused] at hok
      cases hok

/-- A turn is silent exactly if it only prepares or its answer is an error found before
anything runs. -/
private theorem isSilent_iff {limit : Nat} {turn : Turn} {answer : Answer}
    (h : session.take limit turn = some (session', answer)) :
    answer.turn = turn ∧
      (turn.isSilent = true ↔
        turn.use = .prepare ∨ ∃ e, answer.result = .error e ∧ e.isStatic = true) := by
  obtain ⟨hturn, -, htaken⟩ := taken_of_take h
  refine ⟨hturn, ?_⟩
  have hok := session.isOk_prepare turn.source
  generalize answer.result = result at htaken
  cases htaken with
  | refused hprepare =>
    have hrefused : Source.isAccepted turn.source = false := by
      rw [hprepare] at hok
      exact hok.symm
    simp [Turn.isSilent, hrefused, isStatic_of_prepare hprepare]
  | read _ hidle =>
    have huse : turn.use = .prepare := by
      cases huse : turn.use <;> simp [huse, Use.task?] at hidle ⊢
    simp [Turn.isSilent, huse, Use.task?]
  | @ran _ _ _ _ result hprepare hasks _ _ =>
    have haccepted : Source.isAccepted turn.source = true := by
      rw [hprepare] at hok
      exact hok.symm
    have huse : turn.use ≠ .prepare := by
      intro huse
      simp [huse, Use.task?] at hasks
    -- an error is one of the run
    have hnot : ¬∃ e, result.mapError Error.runtime = .error e ∧ e.isStatic = true := by
      rintro ⟨e, he, hstatic⟩
      cases result with
      | ok value => cases he
      | error error =>
        cases he
        cases hstatic
    simp only [Turn.isSilent, hasks, haccepted, huse, hnot, or_self, iff_false]
    simp

end Session

/-! ## The renaming -/

/-- The next free number after the text of the turn. -/
def Turn.next (turn : Turn) (n : Nat) : Nat :=
  (Source.read n turn.source).2

/-- The number in a whole history of the node that has number `id` in the history
without silent turns. The numbers `full` and `short` are the next free ones in the
two. -/
def renumbering : List Turn → Nat → Nat → Nat → Nat
  | [], full, short, id => full - short + id
  | turn :: rest, full, short, id =>
    if turn.isSilent then renumbering rest (turn.next full) short id
    else if id < turn.next short then full - short + id
    else renumbering rest (turn.next full) (turn.next short) id

section Renumbering

variable {turn : Turn} {full short i j : Nat}

private theorem Turn.le_next (turn : Turn) (n : Nat) : n ≤ turn.next n :=
  Source.le_next_read n turn.source

private theorem Turn.task_of_not_isSilent (h : ¬turn.isSilent = true) :
    (∃ task, turn.use.task? = some task) ∧ Source.isAccepted turn.source = true := by
  unfold isSilent at h
  cases htask : turn.use.task? with
  | none => simp [htask] at h
  | some task => exact ⟨⟨task, rfl⟩, by simpa [htask] using h⟩

private theorem Turn.next_of_not_isSilent (hle : short ≤ full)
    (h : ¬turn.isSilent = true) :
    turn.next full = full - short + turn.next short := by
  have hnext :=
    Source.next_read_of_isAccepted (task_of_not_isSilent h).2 (full - short) short
  rwa [Nat.sub_add_cancel hle] at hnext

private theorem le_renumbering (turns : List Turn) (hle : short ≤ full)
    (hi : short ≤ i) :
    full - short + i ≤ renumbering turns full short i := by
  induction turns generalizing full short with
  | nil => exact Nat.le_refl _
  | cons turn rest ih =>
    have hfull := turn.le_next full
    unfold renumbering
    by_cases hsilent : turn.isSilent = true
    · rw [if_pos hsilent]
      have hrest := ih (Nat.le_trans hle hfull) hi
      omega
    · rw [if_neg hsilent]
      by_cases hnext : i < turn.next short
      · exact Nat.le_of_eq (if_pos hnext).symm
      · rw [if_neg hnext]
        have heq := Turn.next_of_not_isSilent hle hsilent
        have hle' : turn.next short ≤ turn.next full := by omega
        have hrest := ih hle' (Nat.le_of_not_lt hnext)
        omega

private theorem renumbering_lt (turns : List Turn) (hle : short ≤ full) (hi : short ≤ i)
    (hij : i < j) :
    renumbering turns full short i < renumbering turns full short j := by
  induction turns generalizing full short with
  | nil => exact Nat.add_lt_add_left hij _
  | cons turn rest ih =>
    have hfull := turn.le_next full
    unfold renumbering
    by_cases hsilent : turn.isSilent = true
    · rw [if_pos hsilent, if_pos hsilent]
      exact ih (Nat.le_trans hle hfull) hi
    · rw [if_neg hsilent, if_neg hsilent]
      have heq := Turn.next_of_not_isSilent hle hsilent
      have hle' : turn.next short ≤ turn.next full := by omega
      by_cases hj : j < turn.next short
      · rw [if_pos hj, if_pos (Nat.lt_trans hij hj)]
        exact Nat.add_lt_add_left hij _
      · rw [if_neg hj]
        by_cases hi' : i < turn.next short
        · -- The first is a node of this turn, the second one of a later turn.
          rw [if_pos hi']
          have hlater := le_renumbering rest hle' (Nat.le_of_not_lt hj)
          omega
        · rw [if_neg hi']
          exact ih hle' (Nat.le_of_not_lt hi')

end Renumbering

/-! ## Histories -/

namespace Session

/-- The answers to the turns that run something are those of the history of these turns
alone. -/
private theorem Tied.play {ρ : NodeId → NodeId} (hρ : Function.Injective ρ)
    (limit : Nat) (turns : List Turn) {full short : Session} (h : Tied ρ full short)
    (hlater : ∀ id, short.nextId ≤ id →
      ρ id = renumbering turns full.nextId short.nextId id) :
    ((full.play limit turns).map fun played =>
        played.2.filter fun answer => !answer.turn.isSilent) =
      (short.play limit (turns.filter fun turn => !turn.isSilent)).map fun played =>
        played.2.map (Answer.rename ρ) := by
  induction turns generalizing full short with
  | nil => rfl
  | cons turn rest ih =>
    by_cases hsilent : turn.isSilent = true
    · -- Only the whole history takes the turn.
      have hlater' : ∀ id, short.nextId ≤ id →
          ρ id = renumbering rest (turn.next full.nextId) short.nextId id := by
        intro id hid
        rw [hlater id hid, renumbering, if_pos hsilent]
      have hnext := full.nextId_prepare turn.source
      have hle := Nat.le_trans h.le (turn.le_next full.nextId)
      have htied : Tied ρ (full.prepare turn.source).1 short := by
        refine h.prepare_left turn.source fun id hid => ?_
        have hbound := le_renumbering rest hle hid
        rw [← hlater' id hid] at hbound
        calc turn.next full.nextId
            = turn.next full.nextId - short.nextId + short.nextId :=
              (Nat.sub_add_cancel hle).symm
          _ ≤ turn.next full.nextId - short.nextId + id := Nat.add_le_add_left hid _
          _ ≤ ρ id := hbound
      obtain ⟨answer, htake, hanswer⟩ := full.take_of_isSilent limit hsilent
      have hrest := ih htied (fun id hid => by rw [hlater' id hid, hnext]; rfl)
      rw [List.filter_cons_of_neg (by simp [hsilent]), ← hrest]
      simp [Session.play, htake, Function.comp_def, hanswer, hsilent]
    · -- Both take the turn.
      obtain ⟨⟨task, htask⟩, haccepted⟩ := Turn.task_of_not_isSilent hsilent
      have hshift : Grammar.Shifts ρ (full.nextId - short.nextId) short.nextId
          (Source.read short.nextId turn.source).2 := by
        intro id hid hnext
        rw [hlater id hid, renumbering, if_neg hsilent]
        exact if_pos hnext
      rw [List.filter_cons_of_pos (by simp [hsilent])]
      rcases h.take hρ limit htask haccepted hshift with
        ⟨hnone, hnone'⟩ | ⟨full', short', answer, hsome, hsome', htied, hfull, hshort⟩
      · simp only [Session.play, hnone, hnone', Option.bind_none, Option.map_none]
      · have hrest := ih htied (by
          intro id hid
          have hle := turn.le_next short.nextId
          rw [hshort] at hid
          rw [hlater id (Nat.le_trans hle hid), renumbering, if_neg hsilent,
            hfull, hshort]
          exact if_neg (Nat.not_lt.2 hid))
        have hturn : (answer.rename ρ).turn.isSilent = false := by
          have hanswer := (isSilent_iff hsome).1
          rw [Answer.rename, hanswer]
          exact Bool.eq_false_iff.2 hsilent
        simp only [Session.play, hsome, hsome', Option.bind_some, Option.map_map,
          Function.comp_def, List.filter_cons, hturn, Bool.not_false, if_true,
            List.map_cons]
        have hcons := congrArg (Option.map (answer.rename ρ :: ·)) hrest
        simpa only [Option.map_map, Function.comp_def] using hcons

private theorem turns_of_play {limit : Nat} {turns : List Turn}
    {session session' : Session} {answers : List Answer}
    (h : session.play limit turns = some (session', answers)) :
    answers.map Answer.turn = turns ∧ ∀ answer ∈ answers,
      (answer.turn.isSilent = true ↔
        answer.turn.use = .prepare ∨ ∃ e, answer.result = .error e ∧
          e.isStatic = true) := by
  induction turns generalizing session answers with
  | nil =>
    cases h
    exact ⟨rfl, fun answer hanswer => by cases hanswer⟩
  | cons turn rest ih =>
    obtain ⟨⟨middle, answer⟩, htake, hrest⟩ := Option.bind_eq_some_iff.1 h
    obtain ⟨⟨last, answers'⟩, hplay, heq⟩ := Option.map_eq_some_iff.1 hrest
    cases heq
    obtain ⟨hturns, hsilent⟩ := ih hplay
    obtain ⟨rfl, hfirst⟩ := isSilent_iff htake
    refine ⟨by rw [List.map_cons, hturns], ?_⟩
    intro other hother
    rcases List.mem_cons.1 hother with rfl | hother
    · exact hfirst
    · exact hsilent other hother

end Session

/-- The turns that only prepare a text or fail before anything runs can be taken out of
a history: all others get the same output, value, error and global names, and the same
program, up to the numbers of nodes. -/
theorem silent_turns_invisible (settings : RunSettings) (natives : List Native)
    (turns : List Turn) :
    (∀ limit session answers,
      (Session.start settings natives).play limit turns = some (session, answers) →
      answers.map Answer.turn = turns ∧ ∀ answer ∈ answers,
        (answer.turn.isSilent = true ↔
          answer.turn.use = .prepare ∨
            ∃ e, answer.result = .error e ∧ e.isStatic = true)) ∧
    ∃ ρ : NodeId → NodeId, (∀ i j, i < j → ρ i < ρ j) ∧ ∀ limit,
      (((Session.start settings natives).play limit turns).map fun played =>
          played.2.filter fun answer => !answer.turn.isSilent) =
        ((Session.start settings natives).play limit
            (turns.filter fun turn => !turn.isSilent)).map fun played =>
          played.2.map (Answer.rename ρ) := by
  refine ⟨fun limit session answers hplay => Session.turns_of_play hplay,
    renumbering turns 0 0, ?_, ?_⟩
  · intro i j hij
    exact renumbering_lt turns (Nat.le_refl 0) (Nat.zero_le i) hij
  · intro limit
    have hinjective : Function.Injective (renumbering turns 0 0) := by
      intro i j hij
      rcases Nat.lt_trichotomy i j with hlt | heq | hgt
      · have := renumbering_lt turns (Nat.le_refl 0) (Nat.zero_le i) hlt
        omega
      · exact heq
      · have := renumbering_lt turns (Nat.le_refl 0) (Nat.zero_le j) hgt
        omega
    refine Session.Tied.play hinjective limit turns ?_ (fun id _ => rfl)
    refine ⟨rfl, rfl, ?_, fun id => ⟨rfl, rfl⟩, Session.bounded_start settings natives,
      Nat.le_refl 0, fun id hid => absurd hid (Nat.not_lt_zero id)⟩
    exact (Heap.rename_start _ natives).symm

/-- Between turns that run something: a text that is only prepared, one that is refused
after a number was drawn for it, and a class that names itself as its superclass. -/
def noisyTurns : List Turn :=
  [⟨.line, "var a = 1;", idleHost⟩, ⟨.prepare, "a = a + 1;", idleHost⟩,
    ⟨.line, "a )", idleHost⟩, ⟨.run, "class A : A = { }", idleHost⟩,
    ⟨.line, "{ var b = a; print(b + a); }", idleHost⟩]

theorem silent_turns_invisible_noisyTurns :
    ∃ session answers, (Session.start Settings.default.run []).play 60 noisyTurns =
        some (session, answers) ∧
      answers.map Answer.turn = noisyTurns ∧
      answers.map (fun answer => answer.turn.isSilent) =
        [false, true, true, true, false] ∧
      answers.map Answer.output = ["", "", "", "", "2"] ∧
      (answers.filterMap Answer.parsed).map Program.ids = [[], [0, 1], [3], [4, 5, 6]] ∧
      ∃ ρ : NodeId → NodeId, (∀ i j, i < j → ρ i < ρ j) ∧
        some (answers.filter fun answer => !answer.turn.isSilent) =
          ((Session.start Settings.default.run []).play 60
              (noisyTurns.filter fun turn => !turn.isSilent)).map fun played =>
            played.2.map (Answer.rename ρ) := by
  have hplayed :
    (((Session.start Settings.default.run []).play 60 noisyTurns).map fun played =>
      (played.2.map (fun answer => answer.turn.isSilent), played.2.map Answer.output,
        (played.2.filterMap Answer.parsed).map Program.ids)) =
      some ([false, true, true, true, false], ["", "", "", "", "2"],
        [[], [0, 1], [3], [4, 5, 6]]) := by
    decide +kernel
  obtain ⟨⟨session, answers⟩, hplay, hfacts⟩ := Option.map_eq_some_iff.1 hplayed
  simp only [Prod.mk.injEq] at hfacts
  obtain ⟨hsilent, houtput, hids⟩ := hfacts
  obtain ⟨hturns, ρ, hmono, hsame⟩ :=
    silent_turns_invisible Settings.default.run [] noisyTurns
  have hsame := hsame 60
  rw [hplay] at hsame
  exact ⟨session, answers, hplay, (hturns 60 session answers hplay).1, hsilent, houtput,
    hids, ρ, hmono, hsame⟩

end Treewalk
