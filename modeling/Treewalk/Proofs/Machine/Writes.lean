import Treewalk.Proofs.Machine.FrameDiscipline
import Treewalk.Proofs.Session.History

/-!
# Where the machine binds names

The declarations and assignments that bind names (`Machine.step_edits`) are about the
environment of the code that they stand in (`Machine.writer?`): a declaration binds in
that environment, an assignment in a scope that it sees or in the global scope.

* `Machine.Reaches.writer_of_bindings_ne`: if a run has changed the bindings of a scope,
  then code that sees the scope wrote to it on the way.
* `Session.nested_play`: scopes nest in every heap that a session comes to.
-/

namespace Treewalk

/-! ## Writers -/

/-- Whether executing the statement binds a name at once. -/
def Stmt.bindsAtOnce : Stmt → Bool
  | .var _ _ none => true
  | .funcDecl _ _ => true
  | .classDecl _ decl => decl.superclass.isNone
  | _ => false

/-- The environment of the declaration or assignment that waits for its value. -/
def Pending.writer? : Pending → Option ScopeId
  | .assign _ _ _ env => some env
  | .declare _ env => some env
  | .superclass _ _ env => some env
  | _ => none

namespace Machine

variable {scope : ScopeId} {name : String}

/-- The environment of the code that is about to bind a name. -/
def writer? (m : Machine) : Option ScopeId :=
  match m.control, m.pending with
  | .exec stmt env, _ => if stmt.bindsAtOnce then some env else none
  | .value _, entry :: _ => entry.writer?
  | _, _ => none

/-- The scopes that code in an environment may write to. -/
def InSight (heap : Heap) (env scope : ScopeId) : Prop :=
  scope = env ∨ scope ∈ heap.chain env ∨ scope = globalScope

private theorem Writes.writer {m : Machine} (h : m.Writes scope name) :
    ∃ env, m.writer? = some env ∧ InSight m.world.heap env scope := by
  obtain ⟨world, control, pending⟩ := m
  rcases h with hdeclares | ⟨env, hassigns, hsight⟩
  · cases control with
    | exec stmt env =>
      obtain ⟨_, hbound, heq⟩ := Option.map_eq_some_iff.1 hdeclares
      cases heq
      refine ⟨scope, if_pos ?_, .inl rfl⟩
      unfold Stmt.bound? at hbound
      split at hbound
      · rfl
      · rfl
      · split at hbound
        · assumption
        · cases hbound
      · cases hbound
    | value value =>
      cases pending with
      | nil => cases hdeclares
      | cons entry pending =>
        cases entry with
        | declare name env =>
          cases hdeclares
          exact ⟨scope, rfl, .inl rfl⟩
        | superclass span decl env =>
          simp only [declares?, Pending.declares?] at hdeclares
          split at hdeclares <;> cases hdeclares
          exact ⟨scope, rfl, .inl rfl⟩
        | _ => cases hdeclares
    | _ => cases hdeclares
  · refine ⟨env, ?_, .inr hsight⟩
    cases control with
    | value value =>
      cases pending with
      | nil => cases hassigns
      | cons entry pending =>
        cases entry with
        | assign span id name env' =>
          cases hassigns
          rfl
        | _ => cases hassigns
    | _ => cases hassigns

/-! ## Runs -/

namespace Reaches

variable {ctx : Context} {start m : Machine}

theorem trans {middle : Machine} (h : Reaches ctx start middle)
    (h' : Reaches ctx middle m) :
    Reaches ctx start m := by
  induction h' with
  | start => exact h
  | step _ ih => exact ih.step

theorem run (ctx : Context) (limit : Nat) (start : Machine) :
    Reaches ctx start (start.run ctx limit) := by
  induction limit generalizing start with
  | zero => exact .start
  | succ limit ih =>
    unfold Machine.run
    split
    · exact .start
    · exact Reaches.trans (.step .start) (ih _)

variable (h : Reaches ctx start m)

include h

/-- Every state of a run is come to in some number of transitions. -/
theorem exists_run : ∃ limit, start.run ctx limit = m := by
  induction h with
  | start => exact ⟨0, rfl⟩
  | @step m _ ih =>
    obtain ⟨limit, rfl⟩ := ih
    refine ⟨limit + 1, ?_⟩
    rw [run_add, Machine.run]
    split
    · rename_i hfinal
      obtain ⟨outcome, houtcome⟩ := Option.isSome_iff_exists.1 hfinal
      exact (step_of_outcome? houtcome).symm
    · rfl

theorem nested (hstart : start.world.heap.Nested) : m.world.heap.Nested := by
  induction h with
  | start => exact hstart
  | step _ ih => exact ih.edits (step_edits ctx _)

theorem size_le : start.world.heap.scopes.size ≤ m.world.heap.scopes.size := by
  induction h with
  | start => exact Nat.le_refl _
  | step _ ih => exact Nat.le_trans ih (step_edits ctx _).size_le

theorem chain {env : ScopeId} (henv : env < start.world.heap.scopes.size) :
    m.world.heap.chain env = start.world.heap.chain env := by
  induction h with
  | start => rfl
  | step h ih =>
    exact ((step_edits ctx _).chain (Nat.lt_of_lt_of_le henv h.size_le)).trans ih

/-- The bindings of a scope change only by code that sees it. -/
theorem writer_of_bindings_ne (hscope : scope < start.world.heap.scopes.size)
    (hne : m.world.heap.bindings scope ≠ start.world.heap.bindings scope) :
    ∃ middle, Reaches ctx start middle ∧ ∃ env, middle.writer? = some env ∧
      InSight middle.world.heap env scope := by
  induction h with
  | start => exact absurd rfl hne
  | @step middle h ih =>
    by_cases hbefore : middle.world.heap.bindings scope =
      start.world.heap.bindings scope
    · have hwrites : ∃ name, middle.Writes scope name := by
        refine Classical.byContradiction fun hspared => hne ?_
        exact ((step_edits ctx middle).bindings (Nat.lt_of_lt_of_le hscope h.size_le)
          fun name hwrites => hspared ⟨name, hwrites⟩).trans hbefore
      obtain ⟨name, hwrites⟩ := hwrites
      exact ⟨middle, h, hwrites.writer⟩
    · exact ih hbefore

end Reaches

end Machine

/-! ## Sessions -/

theorem Heap.nested_start (natives : List Native) : (Heap.start natives).Nested := by
  have hnested : Heap.empty.Nested := by
    constructor <;> (intro env scope hscope; cases hscope)
  exact hnested.makeChild 0 _

theorem Task.world_machine (heap : Heap) (task : Task) :
    (task.machine heap).world = World.start heap := by
  cases task with
  | evaluate expr => rfl
  | script program => rfl
  | run program =>
    simp only [Task.machine, Machine.ofProgram]
    split <;> rfl

namespace Session

variable {limit : Nat} {session session' : Session} {P : Heap → Prop}

/-- What runs keep of a heap, turns keep. -/
theorem heap_take {turn : Turn} {answer : Answer}
    (hrun : ∀ ctx task heap m, P heap → Machine.Reaches ctx (Task.machine heap task) m →
      P m.world.heap) (h : session.take limit turn = some (session', answer))
    (hsession : P session.heap) :
    P session'.heap := by
  obtain ⟨-, -, htaken⟩ := taken_of_take h
  generalize answer.result = result at htaken
  cases htaken with
  | refused hprepare =>
    rw [(kept_of_prepare hprepare).2.2]
    exact hsession
  | read hprepare =>
    rw [(kept_of_prepare hprepare).2.2]
    exact hsession
  | ran hprepare _ hruns =>
    rw [← (kept_of_prepare hprepare).2.2] at hsession
    rw [← hruns]
    exact hrun _ _ _ _ hsession (.run _ _ _)

theorem heap_play
    (hrun : ∀ ctx task heap m, P heap → Machine.Reaches ctx (Task.machine heap task) m →
      P m.world.heap) (turns : List Turn) :
    ∀ {session session' : Session} {answers : List Answer},
      session.play limit turns = some (session', answers) → P session.heap →
        P session'.heap := by
  induction turns with
  | nil =>
    intro session session' answers h hsession
    cases h
    exact hsession
  | cons turn rest ih =>
    intro session session' answers h hsession
    obtain ⟨⟨middle, answer⟩, htake, hrest⟩ := Option.bind_eq_some_iff.1 h
    obtain ⟨⟨final, answers'⟩, hplay, heq⟩ := Option.map_eq_some_iff.1 hrest
    cases heq
    exact ih hplay (heap_take hrun htake hsession)

/-- In every heap that a session comes to, scopes nest. -/
theorem nested_play {settings : RunSettings} {natives : List Native} {turns : List Turn}
    {answers : List Answer}
    (h : (start settings natives).play limit turns = some (session, answers)) :
    session.heap.Nested := by
  refine heap_play (fun ctx task heap m hheap hm => ?_) turns h
    (Heap.nested_start natives)
  refine hm.nested ?_
  rw [Task.world_machine]
  exact hheap

end Session

end Treewalk
