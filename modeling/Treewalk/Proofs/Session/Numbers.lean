import Treewalk.Proofs.Scope.Record
import Treewalk.Proofs.Session.History
import Treewalk.Proofs.Tree.Sound

/-!
# Numbers over a session

Texts draw numbers one after the other and never give one back, so the nodes of all
programs of a session have different numbers, whether or not their texts were resolved
and run. Everything recorded about nodes is about numbers that were drawn
(`Session.Bounded`): the nodes of a new text are unknown when what is resolved about
them is taken in. So every one of the new entries stays, none meets an old one, and the
order in which they are taken in does not show.

## Main results

* `Session.Drawn.of_play`: what a history of turns does to numbers and to what is known.
* `numbers_exact`: numbers are consecutive in a program, distinct over a session, and
  what is known about them is what resolution found.
-/

namespace Treewalk

open Grammar

variable {next : NodeId} {source : String} {program : Program} {n : NodeId}

theorem Grammar.Counts.mem_iff {ids : List Nat} {n m : Nat} (h : Counts ids n m)
    (id : Nat) :
    id ∈ ids ↔ n ≤ id ∧ id < m := by
  have hle := h.1
  rw [h.2, List.mem_range'_1]
  omega

theorem Grammar.Counts.pairwise {ids : List Nat} {n m : Nat} (h : Counts ids n m) :
    ids.Pairwise (· < ·) := by
  rw [h.2]
  exact List.pairwise_lt_range'

private theorem Source.counts_of_read (h : read n source = (.ok program, next)) :
    Counts program.ids n next := by
  obtain ⟨tokens, -, hparse⟩ := read_eq_ok_iff.1 h
  exact (derives_of_parse hparse).ids

theorem Source.nodup_of_read (h : read n source = (.ok program, next)) :
    program.ids.Nodup :=
  (counts_of_read h).pairwise.imp Nat.ne_of_lt

theorem Source.formed_of_read (h : read n source = (.ok program, next)) :
    Stmt.listFormed program.stmts = true := by
  obtain ⟨tokens, -, hparse⟩ := read_eq_ok_iff.1 h
  exact (derives_of_parse hparse).formed

/-- Both know the same about a node. -/
def Resolution.SameAt (resolution other : Resolution) (id : NodeId) : Prop :=
  resolution.distance? id = other.distance? id ∧
    resolution.isNativeCall id = other.isNativeCall id

namespace Resolution.SameAt

variable {a b c : Resolution} {id : NodeId}

theorem refl (a : Resolution) (id : NodeId) : a.SameAt a id :=
  ⟨rfl, rfl⟩

theorem symm (h : a.SameAt b id) : b.SameAt a id :=
  ⟨h.1.symm, h.2.symm⟩

theorem trans (h : a.SameAt b id) (h' : b.SameAt c id) : a.SameAt c id :=
  ⟨h.1.trans h'.1, h.2.trans h'.2⟩

end Resolution.SameAt

namespace Session

variable {session session' : Session} {source : String} {program : Program}

/-! ## What is known is about drawn numbers -/

/-- Nothing is known about numbers that are still free. -/
def Bounded (session : Session) : Prop :=
  ∀ id, session.nextId ≤ id → session.resolution.SameAt .empty id

theorem bounded_start (settings : RunSettings) (natives : List Native) :
    (start settings natives).Bounded :=
  fun id _ => .refl .empty id

/-- In a program that is taken in, all nodes get what was resolved about them, and
nothing else changes. -/
theorem sameAt_merge {resolution : Resolution} (hbounded : session.Bounded)
    (hread : Source.read session.nextId source = (.ok program, next))
    (hresolve : program.resolve (Native.enabled session.natives) session.globalNames =
      .ok resolution) (id : NodeId) :
    (id ∈ program.ids → (session.resolution.merge resolution).SameAt resolution id) ∧
      (id ∉ program.ids →
        (session.resolution.merge resolution).SameAt session.resolution id) := by
  constructor
  · intro hid
    have hfree : session.nextId ≤ id :=
      (((Source.counts_of_read hread).mem_iff id).1 hid).1
    obtain ⟨hdistance, hcall⟩ := hbounded id hfree
    refine ⟨?_, ?_⟩
    · rw [Resolution.distance?_merge, hdistance]
      rfl
    · rw [Resolution.isNativeCall_merge, hcall]
      rfl
  · intro hid
    refine ⟨?_, ?_⟩
    · rw [Resolution.distance?_merge, Program.distance?_resolve_of_not_mem hresolve hid,
        Option.or_none]
    · rw [Resolution.isNativeCall_merge,
        Program.isNativeCall_resolve_of_not_mem hresolve hid, Bool.or_false]

/-- What a session does to numbers and to what is known from one point to a later one:
the numbers drawn meanwhile are in order and new, and what was known of older ones
stays. -/
structure Drawn (session session' : Session) (ids : List NodeId) : Prop where
  bounded : session'.Bounded
  le : session.nextId ≤ session'.nextId
  increasing : ids.Pairwise (· < ·)
  fresh : ∀ id ∈ ids, session.nextId ≤ id ∧ id < session'.nextId
  kept : ∀ id < session.nextId, session'.resolution.SameAt session.resolution id

private theorem Drawn.refl (h : session.Bounded) : session.Drawn session [] where
  bounded := h
  le := Nat.le_refl _
  increasing := .nil
  fresh := fun id hid => by cases hid
  kept := fun id _ => .refl _ id

private theorem Drawn.trans {session'' : Session} {ids ids' : List NodeId}
    (h : session.Drawn session' ids) (h' : session'.Drawn session'' ids') :
    session.Drawn session'' (ids ++ ids') where
  bounded := h'.bounded
  le := Nat.le_trans h.le h'.le
  increasing := by
    refine List.pairwise_append.2 ⟨h.increasing, h'.increasing, ?_⟩
    intro a ha b hb
    exact Nat.lt_of_lt_of_le (h.fresh a ha).2 (h'.fresh b hb).1
  fresh := by
    intro id hid
    rcases List.mem_append.1 hid with hid | hid
    · exact ⟨(h.fresh id hid).1, Nat.lt_of_lt_of_le (h.fresh id hid).2 h'.le⟩
    · exact ⟨Nat.le_trans h.le (h'.fresh id hid).1, (h'.fresh id hid).2⟩
  kept := by
    intro id hid
    exact (h'.kept id (Nat.lt_of_lt_of_le hid h.le)).trans (h.kept id hid)

variable (hbounded : session.Bounded)

include hbounded

/-- Reading a text draws the numbers of its program, if it spells one. -/
theorem Drawn.of_prepare (source : String) :
    session.Drawn (session.prepare source).1
      ((Source.read session.nextId source).1.toOption.toList.flatMap Program.ids) := by
  have hle := Source.le_next_read session.nextId source
  have hnext := session.nextId_prepare source
  -- The numbers are known from the reading alone, also where resolution fails.
  have hids :
    ∀ id ∈ (Source.read session.nextId source).1.toOption.toList.flatMap Program.ids,
      session.nextId ≤ id ∧ id < (Source.read session.nextId source).2 := by
    generalize hread : Source.read session.nextId source = found
    obtain ⟨_ | program, next⟩ := found
    · intro id hid
      cases hid
    · intro id hid
      rw [Except.toOption, Option.toList, List.flatMap_singleton] at hid
      exact ((Source.counts_of_read hread).mem_iff id).1 hid
  have hincreasing :
      ((Source.read session.nextId source).1.toOption.toList.flatMap
        Program.ids).Pairwise (· < ·) := by
    generalize hread : Source.read session.nextId source = found
    obtain ⟨_ | program, next⟩ := found
    · exact .nil
    · rw [Except.toOption, Option.toList, List.flatMap_singleton]
      exact (Source.counts_of_read hread).pairwise
  generalize hprepare : session.prepare source = prepared at hnext
  obtain ⟨session', result⟩ := prepared
  rw [← hnext] at hle hids
  refine ⟨?_, hle, hincreasing, hids, ?_⟩
  · intro id hid
    have hfree : session.nextId ≤ id := Nat.le_trans hle hid
    cases result with
    | error e =>
      rw [eq_of_prepare_error hprepare]
      exact hbounded id hfree
    | ok program =>
      obtain ⟨next, resolution, hread, hresolve, rfl⟩ := prepare_eq_ok_iff.1 hprepare
      have hnot : id ∉ program.ids := fun hmem =>
        Nat.not_le.2 (((Source.counts_of_read hread).mem_iff id).1 hmem).2 hid
      exact ((sameAt_merge hbounded hread hresolve id).2 hnot).trans (hbounded id hfree)
  · intro id hid
    cases result with
    | error e =>
      rw [eq_of_prepare_error hprepare]
      exact .refl _ id
    | ok program =>
      obtain ⟨next, resolution, hread, hresolve, rfl⟩ := prepare_eq_ok_iff.1 hprepare
      have hnot : id ∉ program.ids := fun hmem =>
        Nat.not_le.2 hid (((Source.counts_of_read hread).mem_iff id).1 hmem).1
      exact (sameAt_merge hbounded hread hresolve id).2 hnot

/-- What a turn does to numbers. -/
theorem Drawn.of_take {limit : Nat} {turn : Turn} {answer : Answer}
    (h : session.take limit turn = some (session', answer)) :
    session.Drawn session' (answer.parsed.toList.flatMap Program.ids) := by
  obtain ⟨hparsed, heap, rfl⟩ := take_cases h
  have hprepare := Drawn.of_prepare hbounded turn.source
  rw [hparsed]
  exact ⟨hprepare.bounded, hprepare.le, hprepare.increasing, hprepare.fresh,
    hprepare.kept⟩

/-- What a history of turns does to numbers. -/
theorem Drawn.of_play {limit : Nat} {turns : List Turn} {answers : List Answer}
    (h : session.play limit turns = some (session', answers)) :
    session.Drawn session' ((answers.filterMap Answer.parsed).flatMap Program.ids) := by
  induction turns generalizing session answers with
  | nil =>
    cases h
    exact .refl hbounded
  | cons turn rest ih =>
    obtain ⟨⟨middle, answer⟩, htake, hrest⟩ := Option.bind_eq_some_iff.1 h
    obtain ⟨⟨last, answers'⟩, hplay, heq⟩ := Option.map_eq_some_iff.1 hrest
    cases heq
    have hfirst := Drawn.of_take hbounded htake
    have hall := hfirst.trans (ih hfirst.bounded hplay)
    cases hparsed : answer.parsed with
    | none => simpa [hparsed] using hall
    | some program => simpa [hparsed] using hall

end Session

/-- The numbers of a program are consecutive from its first number on, in the order in
which its nodes are finished. Over a session, refused and failed texts included, no two
nodes share a number. When a text is taken in, nothing is known yet about its nodes;
afterwards each of them has what was resolved about it and all others what they had, in
whatever order the entries are visited; and no later turn changes what is known about a
number that was drawn. -/
theorem numbers_exact :
    (∀ firstId tokens program next, parse firstId tokens = (.ok program, next) →
      Counts program.ids firstId next) ∧
    ∀ limit settings natives turns session answers,
      (Session.start settings natives).play limit turns = some (session, answers) →
      ((answers.filterMap Answer.parsed).flatMap Program.ids).Nodup ∧
      (∀ source session' program, session.prepare source = (session', .ok program) →
        ∃ resolution, program.resolve (Native.enabled session.natives)
          session.globalNames = .ok resolution ∧
          (∀ id ∈ program.ids, session.resolution.SameAt .empty id ∧
            session'.resolution.SameAt resolution id) ∧
          (∀ id ∉ program.ids, session'.resolution.SameAt session.resolution id) ∧
          ∀ entries calls, entries.Perm resolution.distances.toList →
            calls.Perm resolution.nativeCalls.toList →
            ∀ id, ((session.resolution.recordAll entries).markAll calls).SameAt
              session'.resolution id) ∧
      (∀ later session' answers', session.play limit later = some (session', answers') →
        ∀ id < session.nextId, session'.resolution.SameAt session.resolution id) := by
  refine ⟨fun firstId tokens program next h => (derives_of_parse h).ids, ?_⟩
  intro limit settings natives turns session answers hplay
  have hdrawn := Session.Drawn.of_play (Session.bounded_start settings natives) hplay
  refine ⟨hdrawn.increasing.imp Nat.ne_of_lt, ?_, ?_⟩
  · intro source session' program hprepare
    obtain ⟨next, resolution, hread, hresolve, rfl⟩ :=
      Session.prepare_eq_ok_iff.1 hprepare
    have hsame := Session.sameAt_merge hdrawn.bounded hread hresolve
    refine ⟨resolution, hresolve, ?_, fun id hid => (hsame id).2 hid, ?_⟩
    · intro id hid
      have hfree := (((Source.counts_of_read hread).mem_iff id).1 hid).1
      exact ⟨hdrawn.bounded id hfree, (hsame id).1 hid⟩
    · intro entries calls hentries hcalls id
      refine ⟨?_, ?_⟩
      · rw [Resolution.distance?_markAll,
          Resolution.distance?_recordAll_of_perm _ hentries, Resolution.distance?_merge]
      · rw [Resolution.isNativeCall_markAll_of_perm _ hcalls,
          Resolution.isNativeCall_recordAll, Resolution.isNativeCall_merge]
  · intro later session' answers' hlater
    exact (Session.Drawn.of_play hdrawn.bounded hlater).kept

/-- A world outside that answers nothing of interest. -/
def idleHost : Host :=
  ⟨fun _ => ⟨.ok, .error "none", 0⟩⟩

/-- A line that the grammar refuses after it drew a number, a class that names itself as
its superclass, and a block with a variable of its own. -/
def mixedTurns : List Turn :=
  [⟨.line, "a )", idleHost⟩, ⟨.prepare, "class A : A = { }", idleHost⟩,
    ⟨.run, "{ var x = 1; x = x; }", idleHost⟩]

theorem numbers_exact_mixedTurns :
    ∃ session answers,
      (Session.start Settings.default.run [.clock]).play 40 mixedTurns =
        some (session, answers) ∧
      (answers.filterMap Answer.parsed).map Program.ids = [[1], [2, 3]] ∧
      ((answers.filterMap Answer.parsed).flatMap Program.ids).Nodup ∧
      session.resolution.distance? 3 = some 0 ∧
      ∃ session' program, session.prepare "{ var y = clock(); y; }" =
          (session', .ok program) ∧ program.ids = [4, 5, 6] ∧
        session.resolution.distance? 6 = none ∧
        session'.resolution.distance? 6 = some 0 ∧
        session'.resolution.isNativeCall 5 = true ∧
        session'.resolution.distance? 3 = some 0 := by
  have hplayed : (((Session.start Settings.default.run [.clock]).play 40 mixedTurns).map
    fun played =>
      ((played.2.filterMap Answer.parsed).map Program.ids,
        played.1.resolution.distance? 3)) = some ([[1], [2, 3]], some 0) := by
    decide +kernel
  have hprepared :
    (((Session.start Settings.default.run [.clock]).play 40 mixedTurns).map
      fun played =>
        let prepared := played.1.prepare "{ var y = clock(); y; }"
        (prepared.2.toOption.map Program.ids, prepared.1.resolution.distance? 6,
          prepared.1.resolution.isNativeCall 5)) =
            some (some [4, 5, 6], some 0, true) := by
    decide +kernel
  obtain ⟨⟨session, answers⟩, hplay, hfacts⟩ := Option.map_eq_some_iff.1 hplayed
  obtain ⟨hids, hold⟩ := Prod.mk.inj hfacts
  rw [hplay, Option.map_some, Option.some.injEq] at hprepared
  obtain ⟨hnodup, hnext, -⟩ := numbers_exact.2 _ _ _ _ _ _ hplay
  refine ⟨session, answers, hplay, hids, hnodup, hold, ?_⟩
  generalize hprepare : session.prepare "{ var y = clock(); y; }" = prepared
    at hprepared
  obtain ⟨session', _ | program⟩ := prepared
  · cases hprepared
  · simp only [Prod.mk.injEq, Except.toOption, Option.map_some, Option.some.injEq]
      at hprepared
    obtain ⟨hnew, hy, hcall⟩ := hprepared
    obtain ⟨resolution, -, hmine, hothers, -⟩ := hnext _ _ _ hprepare
    have hsix : (6 : NodeId) ∈ program.ids := by
      rw [hnew]
      decide
    have hthree : (3 : NodeId) ∉ program.ids := by
      rw [hnew]
      decide
    exact ⟨session', program, rfl, hnew, (hmine 6 hsix).1.1, hy, hcall,
      (hothers 3 hthree).1.trans hold⟩

end Treewalk
