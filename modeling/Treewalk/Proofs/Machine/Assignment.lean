import Treewalk.Proofs.Machine.Quiet
import Treewalk.Proofs.Scope.Event
import Treewalk.Proofs.Session.Numbers

/-!
# Assignments

A world keeps the values of names in cells: a cell is a name in one of the frames or in
one of the scopes. An assignment is about two of them, the name in the top frame and the
name in the scope that the node refers to (`Context.targets`). Those of the two that are
bound get the value, and nothing else changes, not even the order of the names
(`World.Overwritten`). If neither is bound the assignment fails and changes nothing at
all.

A read goes through the same two cells, the frame first. Since both were written where
both are bound, it gives the value that was assigned, whichever of them it finds
(`Context.read_of_overwritten`).
-/

namespace Treewalk

open List

/-! ## Cells -/

/-- A place for the value of a name. -/
inductive World.Cell where
  /-- The name in a frame, where the top frame has the index 0. -/
  | frame (index : Nat) (name : String)
  | scope (scope : ScopeId) (name : String)
deriving DecidableEq

/-- The value in a cell. -/
def World.cell? (world : World) : World.Cell → Option Value
  | .frame index name =>
    world.frames.list[index]?.bind fun frame => frame.values.get? name
  | .scope scope name => (world.heap.bindings scope).get? name

/-- The frames without the values in them. -/
def Frames.outline (frames : Frames) : List (String × List String) :=
  frames.list.map fun frame => (frame.name, frame.values.names)

/-- The scopes without the values in them. -/
def Heap.outline (heap : Heap) : List (List ScopeId × List String) :=
  heap.scopes.toList.map fun scope => (scope.outer, scope.bindings.names)

/-- Of the given cells those that were bound hold the value, and nothing else has
changed. -/
structure World.Overwritten (cells : List World.Cell) (value : Value)
    (old new : World) : Prop where
  cell? : ∀ cell, new.cell? cell =
    if cell ∈ cells ∧ (old.cell? cell).isSome = true then some value else old.cell? cell
  frames : new.frames.outline = old.frames.outline
  scopes : new.heap.outline = old.heap.outline
  fields : new.heap.fields = old.heap.fields
  nextStamp : new.heap.nextStamp = old.heap.nextStamp
  output : new.output = old.output

/-- The scope that a node refers to: the one at its recorded distance, or else the
global one. -/
def Context.homeScope? (ctx : Context) (heap : Heap) (id : NodeId) (env : ScopeId) :
    Option ScopeId :=
  match ctx.resolution.distance? id with
  | some distance => (heap.chain env)[distance]?
  | none => some globalScope

/-- The cells that an assignment is about. -/
def Context.targets (ctx : Context) (heap : Heap) (name : String) (id : NodeId)
    (env : ScopeId) :
    List World.Cell :=
  .frame 0 name :: ((ctx.homeScope? heap id env).map fun scope =>
    .scope scope name).toList

namespace World

variable {world old mid new : World} {cells cells' : List World.Cell}
  {cell : World.Cell} {name : String} {value : Value}

theorem cell?_top (world : World) (name : String) :
    world.cell? (.frame 0 name) = world.frames.get? name := by
  rw [cell?, Frames.get?, Frames.top?, ← List.head?_eq_getElem?]

/-! ## Writing cells -/

private theorem overwritten_unbound (h : world.cell? cell = none) (value : Value) :
    Overwritten [cell] value world world where
  cell? other := by
    rw [if_neg]
    rintro ⟨hmem, hbound⟩
    rw [mem_singleton.1 hmem, h] at hbound
    cases hbound
  frames := rfl
  scopes := rfl
  fields := rfl
  nextStamp := rfl
  output := rfl

private theorem overwritten_add (h : (world.cell? (.frame 0 name)).isSome = true)
    (value : Value) :
    Overwritten [.frame 0 name] value world
      ⟨world.heap, world.frames.add name value, world.output⟩ := by
  obtain ⟨heap, ⟨list, depth, hdepth⟩, output⟩ := world
  cases list with
  | nil => cases h
  | cons frame rest =>
    refine ⟨fun cell => ?_, ?_, rfl, rfl, rfl, rfl⟩
    · cases cell with
      | scope scope other => simp [cell?]
      | frame index other =>
        cases index with
        | succ index => simp [cell?, Frames.add, Frames.modifyTop]
        | zero =>
          by_cases hname : other = name
          · subst hname
            rw [if_pos ⟨mem_cons_self, h⟩]
            simp [cell?, Frames.add, Frames.modifyTop]
          · simp [cell?, Frames.add, Frames.modifyTop, hname]
    · have hbound : (frame.values.get? name).isSome = true := h
      simp [Frames.outline, Frames.add, Frames.modifyTop,
        Table.names_put_of_get? value hbound]

private theorem outline_define {heap : Heap} {scope : ScopeId}
    (h : ((heap.bindings scope).get? name).isSome = true) (value : Value) :
    (heap.define scope name value).outline = heap.outline := by
  refine ext_getElem? fun index => ?_
  simp only [Heap.outline, List.getElem?_map, Heap.define, Array.getElem?_toList,
    Array.getElem?_modify]
  split
  · rename_i hindex
    subst hindex
    cases hscope : heap.scopes[scope]? with
    | none => rfl
    | some found =>
      have hbound : (found.bindings.get? name).isSome = true := by
        simpa only [Heap.bindings, hscope] using h
      simp [Table.names_put_of_get? value hbound]
  · rfl

theorem overwritten_define {scope : ScopeId}
    (h : (world.cell? (.scope scope name)).isSome = true) (value : Value) :
    Overwritten [.scope scope name] value world
      ⟨world.heap.define scope name value, world.frames, world.output⟩ := by
  obtain ⟨old, hold⟩ := Option.isSome_iff_exists.1 h
  have hsets := Heap.Sets.define (Heap.lt_size_of_get? hold) name value
  refine ⟨fun cell => ?_, rfl, outline_define h value, rfl, rfl, rfl⟩
  cases cell with
  | frame index other => simp [cell?]
  | scope other key =>
    by_cases hcell : World.Cell.scope other key = .scope scope name
    · cases hcell
      rw [if_pos ⟨mem_cons_self, h⟩]
      exact hsets.self
    · rw [if_neg fun hwritten => hcell (mem_singleton.1 hwritten.1)]
      by_cases hscope : other = scope
      · subst hscope
        have hkey : key ≠ name := fun same => hcell (by rw [same])
        simp only [cell?, Heap.bindings_define_self (Heap.lt_size_of_get? hold),
          Table.get?_put_of_ne hkey]
      · simp only [cell?, Heap.bindings_define_of_ne hscope]

namespace Overwritten

private theorem isSome_cell? (h : Overwritten cells value old new) (cell : World.Cell) :
    (new.cell? cell).isSome = (old.cell? cell).isSome := by
  rw [h.cell?]
  split
  · rename_i hwritten
    rw [hwritten.2]
    rfl
  · rfl

private theorem append (h : Overwritten cells value old mid)
    (h' : Overwritten cells' value mid new) :
    Overwritten (cells ++ cells') value old new where
  cell? cell := by
    rw [h'.cell?, h.isSome_cell?, h.cell?]
    by_cases hbound : (old.cell? cell).isSome = true
    · by_cases hmem : cell ∈ cells <;> by_cases hmem' : cell ∈ cells' <;>
        simp [hbound, hmem, hmem']
    · simp [hbound]
  frames := h'.frames.trans h.frames
  scopes := h'.scopes.trans h.scopes
  fields := h'.fields.trans h.fields
  nextStamp := h'.nextStamp.trans h.nextStamp
  output := h'.output.trans h.output

private theorem chain (h : Overwritten cells value old new) (env : ScopeId) :
    new.heap.chain env = old.heap.chain env := by
  have houter : ∀ world : World, world.heap.chain env =
      match world.heap.outline[env]? with
      | some (outer, _) => env :: outer
      | none => [] := by
    intro world
    simp only [Heap.chain, Heap.outline, List.getElem?_map, Array.getElem?_toList]
    cases world.heap.scopes[env]? <;> rfl
  rw [houter, houter, h.scopes]

end Overwritten

end World

/-! ## Looking up the targets -/

namespace Context

variable {ctx : Context} {world : World} {name : String} {id : NodeId}
  {env scope : ScopeId} {value : Value} {cell : World.Cell}

/-- The scope of an assignment is the one that its node refers to, where that binds the
name. -/
theorem scopeSlot_eq_ok_iff : ctx.scopeSlot world name id env = .ok scope ↔
    ctx.homeScope? world.heap id env = some scope ∧
      (world.cell? (.scope scope name)).isSome = true := by
  unfold scopeSlot homeScope? World.cell?
  cases ctx.resolution.distance? id with
  | some distance =>
    simp only [Heap.slotAt, Heap.ancestor, Table.has]
    cases (world.heap.chain env)[distance]? with
    | none => simp
    | some found =>
      by_cases hbound : ((world.heap.bindings found).get? name).isSome = true
      · simp only [hbound, if_true, Except.ok.injEq, Option.some.injEq]
        exact ⟨fun heq => ⟨heq, heq ▸ hbound⟩, fun h => h.1⟩
      · simp only [hbound, Bool.false_eq_true, if_false, reduceCtorEq,
          Option.some.injEq, false_iff]
        rintro ⟨rfl, hscope⟩
        exact hbound hscope
  | none =>
    simp only [World.readGlobal, Option.some.injEq]
    cases hfound : (world.heap.bindings globalScope).get? name with
    | none =>
      simp only [Except.map, reduceCtorEq, false_iff]
      rintro ⟨rfl, hscope⟩
      rw [hfound] at hscope
      cases hscope
    | some found =>
      simp only [Except.map, Except.ok.injEq]
      refine ⟨?_, fun h => h.1⟩
      rintro rfl
      exact ⟨rfl, by rw [hfound]; rfl⟩

private theorem scopeSlot_eq_error {cause : Cause}
    (h : ctx.scopeSlot world name id env = .error cause)
    (hhome : ctx.homeScope? world.heap id env = some scope) :
    world.cell? (.scope scope name) = none := by
  cases hcell : world.cell? (.scope scope name) with
  | none => rfl
  | some found =>
    have hslot := scopeSlot_eq_ok_iff.2 ⟨hhome, by rw [hcell]; rfl⟩
    rw [h] at hslot
    cases hslot

theorem mem_targets {heap : Heap} : cell ∈ ctx.targets heap name id env ↔
    cell = .frame 0 name ∨ ∃ scope, ctx.homeScope? heap id env = some scope ∧
      cell = .scope scope name := by
  simp only [targets, mem_cons, Option.mem_toList, Option.map_eq_some_iff,
    eq_comm (a := cell)]

section Frames

variable (hframes : ctx.discipline = .frames)

include hframes

theorem frameValue?_eq (world : World) (name : String) :
    ctx.frameValue? world name = world.cell? (.frame 0 name) := by
  rw [World.cell?_top, frameValue?, hframes]

private theorem slots_of_unbound
    (h : ∀ cell ∈ ctx.targets world.heap name id env, world.cell? cell = none) :
    ∃ cause, ctx.slots world name id env = .error cause := by
  have htop : ctx.frameValue? world name = none := by
    rw [frameValue?_eq hframes]
    exact h _ (mem_targets.2 (.inl rfl))
  unfold slots
  simp only [htop, Option.isSome_none, Bool.false_eq_true, if_false]
  cases hslot : ctx.scopeSlot world name id env with
  | error cause => exact ⟨cause, rfl⟩
  | ok scope =>
    obtain ⟨hhome, hbound⟩ := scopeSlot_eq_ok_iff.1 hslot
    rw [h _ (mem_targets.2 (.inr ⟨scope, hhome, rfl⟩))] at hbound
    cases hbound

/-- With a bound target the assignment overwrites the targets. -/
private theorem slots_of_bound (hcell : cell ∈ ctx.targets world.heap name id env)
    (hbound : (world.cell? cell).isSome = true) (value : Value) :
    ∃ slots, ctx.slots world name id env = .ok slots ∧
      World.Overwritten (ctx.targets world.heap name id env) value world
        (world.assign slots name value) := by
  -- The frame first: whether or not it has the name, it is left as it should be.
  have hframe : World.Overwritten [.frame 0 name] value world
      ⟨world.heap,
        if (ctx.frameValue? world name).isSome then world.frames.add name value
        else world.frames, world.output⟩ := by
    rw [frameValue?_eq hframes]
    split
    · rename_i htop
      exact World.overwritten_add htop value
    · rename_i htop
      exact World.overwritten_unbound (Option.not_isSome_iff_eq_none.1 htop) value
  cases hslot : ctx.scopeSlot world name id env with
  | ok scope =>
    obtain ⟨hhome, hscope⟩ := scopeSlot_eq_ok_iff.1 hslot
    refine ⟨⟨(ctx.frameValue? world name).isSome, some scope⟩, by simp only [slots,
      hslot], ?_⟩
    have hdefine := World.overwritten_define
      ((hframe.isSome_cell? (.scope scope name)).trans hscope) value
    have hall := hframe.append hdefine
    rw [targets, hhome]
    exact hall
  | error cause =>
    have htop : (ctx.frameValue? world name).isSome = true := by
      rw [frameValue?_eq hframes]
      rcases mem_targets.1 hcell with rfl | ⟨scope, hhome, rfl⟩
      · exact hbound
      · rw [scopeSlot_eq_error hslot hhome] at hbound
        cases hbound
    refine ⟨⟨true, none⟩, by simp only [slots, hslot, htop, if_true], ?_⟩
    rw [htop] at hframe
    cases hhome : ctx.homeScope? world.heap id env with
    | none =>
      rw [targets, hhome]
      exact hframe
    | some scope =>
      have hunbound := (hframe.isSome_cell? (.scope scope name)).trans
        (Option.isSome_eq_false_iff.2
          (Option.isNone_iff_eq_none.2 (scopeSlot_eq_error hslot hhome)))
      rw [targets, hhome]
      exact hframe.append (World.overwritten_unbound
        (Option.isNone_iff_eq_none.1 (Option.isSome_eq_false_iff.1 hunbound)) value)

/-- A name that has its value in the top frame, or has none there and has it in the
scope that the node refers to, is read from there. -/
private theorem read_eq_ok
    (h : world.cell? (.frame 0 name) = some value ∨ world.cell? (.frame 0 name) = none ∧
      ∃ scope, ctx.homeScope? world.heap id env = some scope ∧
      world.cell? (.scope scope name) = some value) :
    ctx.read world name id env = .ok value := by
  unfold read
  rw [frameValue?_eq hframes]
  rcases h with htop | ⟨htop, scope, hhome, hscope⟩
  · rw [htop]
  · rw [htop]
    unfold homeScope? at hhome
    unfold World.cell? at hscope
    cases hdistance : ctx.resolution.distance? id with
    | some distance =>
      rw [hdistance] at hhome
      simp only [Heap.getAt, Heap.ancestor, hhome, hscope]
    | none =>
      rw [hdistance] at hhome
      cases hhome
      simp only [World.readGlobal, hscope]

/-- What was assigned is read back through every node that refers to the same scope. -/
theorem read_of_overwritten {new : World}
    (h : World.Overwritten (ctx.targets world.heap name id env) value world new)
    (hcell : cell ∈ ctx.targets world.heap name id env)
    (hbound : (world.cell? cell).isSome = true) {id' : NodeId}
    (hid : ctx.resolution.distance? id' = ctx.resolution.distance? id) :
    ctx.read new name id' env = .ok value := by
  have hwritten : ∀ cell ∈ ctx.targets world.heap name id env,
    (world.cell? cell).isSome = true →
      new.cell? cell = some value := by
    intro cell hcell hbound
    rw [h.cell?, if_pos ⟨hcell, hbound⟩]
  by_cases htop : (world.cell? (.frame 0 name)).isSome = true
  · exact read_eq_ok hframes (.inl (hwritten _ (mem_targets.2 (.inl rfl)) htop))
  · rcases mem_targets.1 hcell with rfl | ⟨scope, hhome, rfl⟩
    · exact absurd hbound htop
    · refine read_eq_ok hframes (.inr ⟨?_, scope, ?_, hwritten _ hcell hbound⟩)
      · rw [← Option.not_isSome_iff_eq_none, h.isSome_cell?]
        exact htop
      · unfold homeScope? at hhome ⊢
        rw [hid, h.chain]
        exact hhome

end Frames

end Context

/-! ## The transition of an assignment -/

namespace Machine

open World

private theorem step_assign {ctx : Context} (hframes : ctx.discipline = .frames)
    (world : World) (name : String) (id : NodeId) (env : ScopeId) (value : Value)
    (span : Span) (pending : List Pending) :
    (∀ cell ∈ ctx.targets world.heap name id env, world.cell? cell = none) ∧
      (∃ cause, step ctx ⟨world, .value value, .assign span id name env :: pending⟩ =
        failAt world pending cause (some span)) ∨
    (∃ cell ∈ ctx.targets world.heap name id env, (world.cell? cell).isSome = true) ∧
      ∃ world', step ctx ⟨world, .value value, .assign span id name env :: pending⟩ =
          ⟨world', .value value, pending⟩ ∧
        Overwritten (ctx.targets world.heap name id env) value world world' := by
  by_cases hbound : ∃ cell ∈ ctx.targets world.heap name id env,
    (world.cell? cell).isSome = true
  · refine .inr ⟨hbound, ?_⟩
    obtain ⟨cell, hcell, hsome⟩ := hbound
    obtain ⟨slots, hslots, hwritten⟩ := Context.slots_of_bound hframes hcell hsome value
    exact ⟨_, by simp only [step, receive, hslots], hwritten⟩
  · have hunbound : ∀ cell ∈ ctx.targets world.heap name id env,
        world.cell? cell = none :=
      fun cell hcell => Option.not_isSome_iff_eq_none.1 fun hsome =>
        hbound ⟨cell, hcell, hsome⟩
    obtain ⟨cause, hslots⟩ := Context.slots_of_unbound hframes hunbound
    exact .inl ⟨hunbound, cause, by simp only [step, receive, hslots]⟩

/-- An assignment fails exactly if neither of its targets is bound, and then the world
stays as it was. Otherwise it overwrites those of its targets that are bound and nothing
else, so it binds no new name, and every node that refers to the same scope then reads
the value. -/
theorem assignment_atomic (session : Session) (host : Host) (world : World)
    (name : String) (id : NodeId) (env : ScopeId) (value : Value) (span : Span)
    (pending : List Pending) :
    let ctx := session.context host
    let targets := ctx.targets world.heap name id env
    let assigning : Machine :=
      ⟨world, .value value, .assign span id name env :: pending⟩
    ((∃ cause, assigning.step ctx = failAt world pending cause (some span)) ↔
      ∀ cell ∈ targets, world.cell? cell = none) ∧
    ((∃ world', assigning.step ctx = ⟨world', .value value, pending⟩) ↔
      ∃ cell ∈ targets, (world.cell? cell).isSome = true) ∧
    ∀ world', assigning.step ctx = ⟨world', .value value, pending⟩ →
      Overwritten targets value world world' ∧
      ∀ id' span' pending', ctx.resolution.distance? id' = ctx.resolution.distance? id →
        step ctx ⟨world', .eval (.var span' id' name) env, pending'⟩ =
          ⟨world', .value value, pending'⟩ := by
  intro ctx targets assigning
  have hframes : ctx.discipline = .frames := rfl
  rcases step_assign hframes world name id env value span pending with
    ⟨hunbound, cause, hstep⟩ | ⟨⟨cell, hcell, hbound⟩, world', hstep, hwritten⟩
  · refine ⟨iff_of_true ⟨cause, hstep⟩ hunbound, iff_of_false ?_ ?_, ?_⟩
    · rintro ⟨world', hvalue⟩
      cases hstep.symm.trans hvalue
    · rintro ⟨cell, hcell, hbound⟩
      rw [hunbound cell hcell] at hbound
      cases hbound
    · intro world' hvalue
      cases hstep.symm.trans hvalue
  · refine ⟨iff_of_false ?_ ?_, iff_of_true ⟨world', hstep⟩ ⟨cell, hcell, hbound⟩, ?_⟩
    · rintro ⟨cause, hfail⟩
      cases hstep.symm.trans hfail
    · intro hunbound
      rw [hunbound cell hcell] at hbound
      cases hbound
    · intro world'' hvalue
      cases hstep.symm.trans hvalue
      refine ⟨hwritten, fun id' span' pending' hid => ?_⟩
      simp only [step, evaluate, Context.read_of_overwritten hframes hwritten hcell
        hbound hid, answer]

/-- Nodes 3 and 4 refer to the scope around their own. -/
def outerSession : Session :=
  { Session.start Settings.default.run [] with
    resolution := (Resolution.empty.record 3 1).record 4 1 }

/-- `x` is 1 in the scope 1, in the frame of the call that is under way and in the frame
below it. -/
def outerWorld : World where
  heap :=
    (((Heap.start []).makeChild globalScope [("x", .number 1)]).2.makeChild 1 []).2
  frames :=
    (((Frames.empty.push globalFrame).add "x" (.number 1)).push "f").add "x" (.number 1)
  output := ""

/-- `x = 5` at node 3, in the scope 2, is read back at node 4 and leaves the lower frame
alone; an assignment to `y` fails. -/
theorem assignment_atomic_outer :
    let ctx := outerSession.context idleHost
    (∃ world, step ctx ⟨outerWorld, .value (.number 5), [.assign ⟨0, 5⟩ 3 "x" 2]⟩ =
        ⟨world, .value (.number 5), []⟩ ∧
      world.cell? (.frame 0 "x") = some (.number 5) ∧
      world.cell? (.scope 1 "x") = some (.number 5) ∧
      world.cell? (.frame 1 "x") = some (.number 1) ∧
      world.cell? (.scope 0 "x") = none ∧
      step ctx ⟨world, .eval (.var ⟨6, 7⟩ 4 "x") 2, []⟩ =
        ⟨world, .value (.number 5), []⟩) ∧
    ∃ cause, step ctx ⟨outerWorld, .value (.number 5), [.assign ⟨0, 5⟩ 3 "y" 2]⟩ =
      failAt outerWorld [] cause (some ⟨0, 5⟩) := by
  intro ctx
  have hunbound : ∀ cell ∈ [World.Cell.frame 0 "y", .scope 1 "y"],
      outerWorld.cell? cell = none :=
    forall_mem_cons.2 ⟨rfl, forall_mem_singleton.2 rfl⟩
  obtain ⟨-, hassigns, hafter⟩ :=
    assignment_atomic outerSession idleHost outerWorld "x" 3 2 (.number 5) ⟨0, 5⟩ []
  obtain ⟨hfails, -⟩ :=
    assignment_atomic outerSession idleHost outerWorld "y" 3 2 (.number 5) ⟨0, 5⟩ []
  obtain ⟨world, hstep⟩ := hassigns.2 ⟨.frame 0 "x", mem_cons_self, rfl⟩
  obtain ⟨hwritten, hread⟩ := hafter world hstep
  refine ⟨⟨world, hstep, ?_, ?_, ?_, ?_, hread 4 ⟨6, 7⟩ [] rfl⟩, hfails.2 hunbound⟩
  · rw [hwritten.cell?]
    rfl
  · rw [hwritten.cell?]
    rfl
  · rw [hwritten.cell?]
    rfl
  · rw [hwritten.cell?]
    rfl

end Machine

end Treewalk
