import Mathlib.Logic.Relation
import Treewalk.Command.System
import Treewalk.Proofs.Machine.Classes
import Treewalk.Proofs.Machine.Writes

/-!
# The heap over a session

A session is idle between two texts, or it is in the middle of a run. `Session.Moves`
are the steps that it can take: it reads a text, starts a run, makes one transition of
it, hands on what was printed, or takes over the heap of the run. Whatever becomes of a
text, a turn is made of such steps (`Session.moves_play`).

Over all of them, scopes and classes stay as they were made: parent links and superclass
links lead to what was made earlier, and nothing that is bound or set is ever taken
away. What carries the proof about classes is that a class is known by its stamp: a
class of a later state is one of an earlier state, or has a stamp that was not yet drawn
there (`Moment.Grows`).
-/

namespace Treewalk

variable {cls : Class}

/-- Where a session is: between two texts, or in the middle of a run. -/
inductive Moment where
  | idle (session : Session)
  | running (session : Session) (m : Machine)

namespace Moment

/-- The heap at that moment. -/
def heap : Moment → Heap
  | idle session => session.heap
  | running _ m => m.world.heap

/-- All that is held at that moment. -/
def contents : Moment → List Content
  | idle session => session.heap.contents
  | running _ m => m.contents

/-- The class is known: some value is of it, or of one that inherits from it. -/
def Has (moment : Moment) (cls : Class) : Prop :=
  cls.Among moment.contents

end Moment

/-- What a session does next. -/
inductive Session.Moves : Moment → Moment → Prop
  | read (session : Session) (source : String) : Moves (.idle session)
      (.idle (session.prepare source).1)
  | start (session : Session) (task : Task) : Moves (.idle session)
      (.running session (task.machine session.heap))
  | step (session : Session) (host : Host) (m : Machine) :
      Moves (.running session m) (.running session (m.step (session.context host)))
  | print (session : Session) (m : Machine) : Moves (.running session m)
      (.running session m.takeOutput.2)
  | finish (session : Session) (m : Machine) :
      Moves (.running session m) (.idle { session with heap := m.world.heap })

/-! ## Turns are moves -/

namespace Session

variable {limit : Nat} {session session' : Session}

theorem moves_reaches {host : Host} {start m : Machine}
    (h : Machine.Reaches (session.context host) start m) :
    Relation.ReflTransGen Moves (.running session start) (.running session m) := by
  induction h with
  | start => exact .refl
  | step _ ih => exact ih.tail (.step session host _)

private theorem moves_take {turn : Turn} {answer : Answer}
    (h : session.take limit turn = some (session', answer)) :
    Relation.ReflTransGen Moves (.idle session) (.idle session') := by
  have hread : Moves (.idle session) (.idle (session.prepare turn.source).1) :=
    .read session turn.source
  obtain ⟨-, -, htaken⟩ := taken_of_take h
  generalize answer.result = result at htaken
  cases htaken with
  | refused hprepare =>
    rw [hprepare] at hread
    exact .single hread
  | read hprepare =>
    rw [hprepare] at hread
    exact .single hread
  | @ran prepared program make _ _ hprepare _ hruns =>
    rw [hprepare] at hread
    subst hruns
    have hrun : Relation.ReflTransGen Moves (.running prepared _)
        (.running prepared _) :=
      moves_reaches
        (.run (prepared.context turn.host) limit ((make program).machine prepared.heap))
    exact ((Relation.ReflTransGen.single hread).tail
      (.start prepared (make program))).trans (hrun.tail (.finish prepared _))

theorem moves_play {turns : List Turn} :
    ∀ {session session' : Session} {answers : List Answer},
    session.play limit turns = some (session', answers) →
      Relation.ReflTransGen Moves (.idle session) (.idle session') := by
  induction turns with
  | nil =>
    intro session session' answers h
    cases h
    exact .refl
  | cons turn rest ih =>
    intro session session' answers h
    obtain ⟨⟨middle, answer⟩, htake, hrest⟩ := Option.bind_eq_some_iff.1 h
    obtain ⟨⟨final, answers'⟩, hplay, heq⟩ := Option.map_eq_some_iff.1 hrest
    cases heq
    exact (moves_take htake).trans (ih hplay)

end Session

namespace Moment

variable {before middle after : Moment}

/-! ## One move -/

/-- The heap is the same, and no class comes in. -/
structure Keeps (before after : Moment) : Prop where
  heap : after.heap = before.heap
  classes : ∀ cls, after.Has cls → before.Has cls

theorem keeps_start (session : Session) (task : Task) :
    Keeps (.idle session) (.running session (task.machine session.heap)) := by
  refine ⟨congrArg World.heap (Task.world_machine session.heap task),
    fun cls hcls => ?_⟩
  have hheap : ∀ content ∈ session.heap.contents, content.Of fun top =>
      ∀ cls ∈ top.lineage, Has (.idle session) cls :=
    Content.forall_of_lineage.2 fun _ hcls => hcls
  refine Content.forall_of_lineage.1 (Content.forall_task hheap ?_) cls hcls
  -- the statements of a task hold no values
  refine List.forall_mem_flatMap.2 fun stmt _ => List.forall_mem_append.2 ⟨?_, ?_⟩
  · exact List.forall_mem_map.2 fun _ _ => trivial
  · exact List.forall_mem_map.2 fun _ _ => trivial

private theorem keeps_or_step (h : Session.Moves before after) :
    before.Keeps after ∨ ∃ session host m, before = .running session m ∧
      after = .running session (m.step (session.context host)) := by
  cases h with
  | read session source =>
    have hheap : (session.prepare source).1.heap = session.heap :=
      (Session.kept_of_prepare rfl).2.2
    have hcontents : contents (.idle (session.prepare source).1) =
        contents (.idle session) :=
      congrArg Heap.contents hheap
    refine .inl ⟨hheap, fun cls hcls => ?_⟩
    rwa [Has, hcontents] at hcls
  | start session task => exact .inl (keeps_start session task)
  | step session host m => exact .inr ⟨session, host, m, rfl, rfl⟩
  | print session m => exact .inl ⟨rfl, fun _ hcls => hcls⟩
  | finish session m =>
    refine .inl ⟨rfl, ?_⟩
    rintro cls ⟨value, top, hmem, htop⟩
    exact ⟨value, top, List.mem_append_left _ (List.mem_append_left _ hmem), htop⟩

/-- What there is stays, and a class that is new has a stamp that is new. -/
structure Grows (before after : Moment) : Prop where
  heap : before.heap.Grows after.heap
  classes : ∀ cls, after.Has cls → before.Has cls ∨ before.heap.nextStamp ≤ cls.stamp

namespace Grows

private theorem refl (moment : Moment) : moment.Grows moment :=
  ⟨.refl _, fun _ hcls => .inl hcls⟩

theorem trans (h : before.Grows middle) (h' : middle.Grows after) :
    before.Grows after := by
  refine ⟨h.heap.trans h'.heap, fun cls hcls => ?_⟩
  rcases h'.classes cls hcls with hold | hnew
  · exact h.classes cls hold
  · exact .inr (Nat.le_trans h.heap.nextStamp hnew)

private theorem of_moves (h : Session.Moves before after) : before.Grows after := by
  rcases keeps_or_step h with hkeeps | ⟨session, host, m, rfl, rfl⟩
  · exact ⟨hkeeps.heap ▸ .refl _, fun cls hcls => .inl (hkeeps.classes cls hcls)⟩
  · refine ⟨(Machine.step_edits _ m).grows, fun cls hcls => ?_⟩
    refine (Machine.among_of_step hcls).imp id ?_
    rintro ⟨env, decl, superclass, -, rfl⟩
    exact Machine.le_stamp_classOf m.world.heap env decl superclass

private theorem of_reflTransGen (h : Relation.ReflTransGen Session.Moves before after) :
    before.Grows after := by
  induction h with
  | refl => exact .refl before
  | tail _ hmove ih => exact ih.trans (.of_moves hmove)

end Grows

/-! ## What holds at all times -/

/-- Links lead to what was made earlier, and a class is known by its stamp. -/
structure Sound (moment : Moment) : Prop where
  chained : moment.heap.Chained
  nested : moment.heap.Nested
  stamped : ∀ cls, moment.Has cls → cls.stamp < moment.heap.nextStamp
  earlier : ∀ cls, moment.Has cls → ∀ superclass, cls.superclass? = some superclass →
    superclass.stamp < cls.stamp
  unique : ∀ cls other, moment.Has cls → moment.Has other → cls.stamp = other.stamp →
    cls = other

namespace Sound

private theorem start (settings : RunSettings) (natives : List Native) :
    Sound (.idle (Session.start settings natives)) := by
  -- Capabilities are of no class.
  have hnone : ∀ cls, ¬Has (.idle (Session.start settings natives)) cls := by
    rintro cls ⟨value, top, hmem, htop, -⟩
    obtain ⟨native, -, heq⟩ := Heap.native_of_mem_contents_start hmem
    cases heq
    cases htop
  exact ⟨Heap.chained_start natives, Heap.nested_start natives, fun cls hcls =>
    absurd hcls (hnone cls), fun cls hcls => absurd hcls (hnone cls), fun cls _ hcls =>
    absurd hcls (hnone cls)⟩

variable (h : before.Sound)

include h

private theorem of_keeps (hkeeps : before.Keeps after) : after.Sound where
  chained := hkeeps.heap ▸ h.chained
  nested := hkeeps.heap ▸ h.nested
  stamped cls hcls := hkeeps.heap ▸ h.stamped cls (hkeeps.classes cls hcls)
  earlier cls hcls := h.earlier cls (hkeeps.classes cls hcls)
  unique cls other hcls hother :=
    h.unique cls other (hkeeps.classes cls hcls) (hkeeps.classes other hother)

omit h in
theorem step (session : Session) (host : Host) (m : Machine)
    (h : Sound (.running session m)) :
    Sound (.running session (m.step (session.context host))) := by
  have hedits := Machine.step_edits (session.context host) m
  -- A class that is made now is stamped after all that were there before, its
  -- superclass among them.
  have hnew : ∀ cls, m.Makes cls → m.world.heap.nextStamp ≤ cls.stamp ∧
      cls.stamp < (m.step (session.context host)).world.heap.nextStamp ∧
      ∀ superclass, cls.superclass? = some superclass →
        Has (.running session m) superclass := by
    rintro cls ⟨env, decl, superclass, hdeclares, rfl⟩
    obtain ⟨pending, hstep⟩ := hdeclares.step_eq (session.context host)
    refine ⟨Machine.le_stamp_classOf _ _ _ _, ?_, fun found hfound => ?_⟩
    · rw [hstep, Machine.nextStamp_declareClass]
      exact Nat.lt_succ_self _
    · rw [Machine.superclass?_classOf] at hfound
      exact hdeclares.among hfound
  refine ⟨h.chained.edits hedits, h.nested.edits hedits, fun cls hcls => ?_,
    fun cls hcls superclass hsuper => ?_, fun cls other hcls hother hstamp => ?_⟩
  · rcases Machine.among_of_step hcls with hold | hmade
    · exact Nat.lt_of_lt_of_le (h.stamped cls hold) hedits.nextStamp_le
    · exact (hnew cls hmade).2.1
  · rcases Machine.among_of_step hcls with hold | hmade
    · exact h.earlier cls hold superclass hsuper
    · obtain ⟨hle, -, hfound⟩ := hnew cls hmade
      exact Nat.lt_of_lt_of_le (h.stamped superclass (hfound superclass hsuper)) hle
  · rcases Machine.among_of_step hcls with hold | hmade <;>
      rcases Machine.among_of_step hother with hold' | hmade'
    · exact h.unique cls other hold hold' hstamp
    · have hlt := h.stamped cls hold
      have hle := (hnew other hmade').1
      simp only [heap] at hlt
      omega
    · have hlt := h.stamped other hold'
      have hle := (hnew cls hmade).1
      simp only [heap] at hlt
      omega
    · exact hmade.unique hmade'

theorem of_reflTransGen (hmoves : Relation.ReflTransGen Session.Moves before after) :
    after.Sound := by
  induction hmoves with
  | refl => exact h
  | tail _ hmove ih =>
    rcases keeps_or_step hmove with hkeeps | ⟨session, host, m, rfl, rfl⟩
    · exact ih.of_keeps hkeeps
    · exact ih.step session host m

private theorem founded (hcls : before.Has cls) : cls.Founded :=
  Class.founded fun other hother => h.earlier other (hcls.ancestor hother)

private theorem eq_of_grows (hgrows : before.Grows after) {other : Class}
    (hcls : before.Has cls) (hother : after.Has other)
    (hstamp : other.stamp = cls.stamp) : other = cls := by
  rcases hgrows.classes other hother with hold | hnew
  · exact h.unique other cls hold hcls hstamp
  · have hlt := h.stamped cls hcls
    omega

end Sound

end Moment

/-- At every moment of a session, parent links and superclass links lead to what was
made earlier, what looks for names and methods are walks along them that end, and from
any moment to any later one, scopes keep their parents, classes keep their superclass
and methods, and names stay bound and fields stay set. -/
theorem Session.founded_and_growing (settings : RunSettings) (natives : List Native) :
    (∀ limit turns session answers,
      (start settings natives).play limit turns = some (session, answers) →
      Relation.ReflTransGen Moves (.idle (start settings natives)) (.idle session)) ∧
    ∀ before, Relation.ReflTransGen Moves (.idle (start settings natives)) before →
      before.heap.Founded ∧
      (∀ cls, before.Has cls → cls.Founded ∧ cls.stamp < before.heap.nextStamp ∧
        ∀ superclass, cls.superclass? = some superclass → before.Has superclass) ∧
      ∀ after, Relation.ReflTransGen Moves before after →
        before.Grows after ∧
        ∀ cls other, before.Has cls → after.Has other → other.stamp = cls.stamp →
          other.superclass? = cls.superclass? ∧ other.methods = cls.methods := by
  refine ⟨fun _ _ _ _ hplay => moves_play hplay, fun before hbefore => ?_⟩
  have hsound := (Moment.Sound.start settings natives).of_reflTransGen hbefore
  refine ⟨hsound.chained.founded hsound.nested, fun cls hcls => ?_,
    fun after hafter => ?_⟩
  · refine ⟨hsound.founded hcls, hsound.stamped cls hcls, fun superclass hsuper => ?_⟩
    exact hcls.ancestor (Class.lineage_subset hsuper superclass.self_mem_lineage)
  · have hgrows := Moment.Grows.of_reflTransGen hafter
    refine ⟨hgrows, fun cls other hcls hother hstamp => ?_⟩
    obtain rfl := hsound.eq_of_grows hgrows hcls hother hstamp
    exact ⟨rfl, rfl⟩

/-- A class that inherits, and then a new class under the name of its superclass. -/
def inheritingTurn : Turn :=
  ⟨.line, "class A = { func m() = { return 1; } } class B : A = {}", .silent⟩

def redeclaringTurn : Turn :=
  ⟨.line, "class A = {} B().m();", .silent⟩

/-- The class of the value that a global name has. -/
def Session.globalClass? (session : Session) (name : String) : Option Class :=
  ((session.heap.bindings globalScope).get? name).bind Value.class?

private theorem Session.has_of_globalClass? {session : Session} {name : String}
    (h : session.globalClass? name = some cls) :
    Moment.Has (.idle session) cls := by
  obtain ⟨value, hvalue, hcls⟩ := Option.bind_eq_some_iff.1 h
  exact ⟨value, cls, (session.heap.holds_contents.bindings globalScope).get? hvalue,
    hcls, cls.self_mem_lineage⟩

/-- The class that inherits keeps its superclass, when the name of the superclass gets
another class. -/
theorem Session.founded_and_growing_redeclared :
    ∃ early answer late answer' cls other superclass,
      (start Settings.default.run []).take 40 inheritingTurn = some (early, answer) ∧
      early.take 40 redeclaringTurn = some (late, answer') ∧
      early.globalClass? "B" = some cls ∧ late.globalClass? "B" = some other ∧
      late.globalClass? "A" = some superclass ∧
      cls.Founded ∧ Moment.Grows (.idle early) (.idle late) ∧
      other.superclass? = cls.superclass? ∧ other.methods = cls.methods ∧
      cls.superclass?.map Class.stamp ≠ some superclass.stamp := by
  have hplayed : ((start Settings.default.run []).take 40 inheritingTurn).bind
    (fun early =>
      (early.1.take 40 redeclaringTurn).bind fun late =>
        (early.1.globalClass? "B").bind fun cls =>
          (late.1.globalClass? "B").bind fun other =>
          (late.1.globalClass? "A").map fun superclass =>
            (cls.stamp, other.stamp, superclass.stamp,
              cls.superclass?.map Class.stamp)) =
      some (2, 2, 3, some 1) := by
    decide +kernel
  obtain ⟨⟨early, answer⟩, hearly, hplayed⟩ := Option.bind_eq_some_iff.1 hplayed
  obtain ⟨⟨late, answer'⟩, hlate, hplayed⟩ := Option.bind_eq_some_iff.1 hplayed
  obtain ⟨cls, hcls, hplayed⟩ := Option.bind_eq_some_iff.1 hplayed
  obtain ⟨other, hother, hplayed⟩ := Option.bind_eq_some_iff.1 hplayed
  obtain ⟨superclass, hsuper, hstamps⟩ := Option.map_eq_some_iff.1 hplayed
  simp only [Prod.mk.injEq] at hstamps
  obtain ⟨hstamp, hstamp', hnew, hold⟩ := hstamps
  obtain ⟨-, hclasses, hlater⟩ :=
    (founded_and_growing Settings.default.run []).2 (.idle early) (moves_take hearly)
  obtain ⟨hgrows, hsame⟩ := hlater (.idle late) (moves_take hlate)
  have hhas := has_of_globalClass? hcls
  obtain ⟨hsuperclass, hmethods⟩ :=
    hsame cls other hhas (has_of_globalClass? hother) (by rw [hstamp, hstamp'])
  refine ⟨early, answer, late, answer', cls, other, superclass, hearly, hlate, hcls,
    hother, hsuper, (hclasses cls hhas).1, hgrows, hsuperclass, hmethods, ?_⟩
  rw [hold, hnew]
  decide

end Treewalk
