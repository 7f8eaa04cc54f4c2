import Treewalk.Proofs.Heap.Reach
import Treewalk.Proofs.Machine.Regime

/-!
# Running inside a territory

In the middle of a call the machine works with the values in its control, in the entries
above those of the caller and in the frames above that of the caller, and with what the
heap leads to from there. If all of this is inside a territory that confines the heap
(`Territory.regime`), so it is after the next transition: a value that a transition uses
is read from one of these places, made anew, or given by an operator or a capability and
then holds no cell at all (`Territory.upheld`).
-/

namespace Treewalk

open List

variable {method : Function}

namespace Territory

variable {old : Heap} (land : Territory old)

/-! ## Worlds inside a territory -/

/-- The heap is confined, and the frames of that many calls hold nothing from
outside. -/
structure Contains (depth : Nat) (world : World) : Prop where
  heap : land.Confines world.heap
  frames : ∀ frame ∈ world.frames.list.take depth, Table.Holds land.Holds frame.values

variable {land} {depth : Nat} {world : World}

/-! ## Frames -/

namespace Contains

variable (h : land.Contains depth world)

include h

private theorem withHeap {heap : Heap} (hheap : land.Confines heap) (output : String) :
    land.Contains depth ⟨heap, world.frames, output⟩ :=
  ⟨hheap, h.frames⟩

private theorem push (name : String) :
    land.Contains (depth + 1) ⟨world.heap, world.frames.push name, world.output⟩ where
  heap := h.heap
  frames frame hframe := by
    rcases mem_cons.1 hframe with rfl | hold
    · exact .nil
    · exact h.frames frame hold

omit h in
private theorem pop (h : land.Contains (depth + 1) world) :
    land.Contains depth ⟨world.heap, world.frames.pop, world.output⟩ where
  heap := h.heap
  frames frame hframe := by
    refine h.frames frame ?_
    rw [Frames.list_pop] at hframe
    cases hlist : world.frames.list with
    | nil => simp [hlist] at hframe
    | cons top rest =>
      rw [hlist] at hframe
      exact mem_cons_of_mem _ hframe

private theorem modifyTop {f : Table Value → Table Value}
    (hf : ∀ table, Table.Holds land.Holds table → Table.Holds land.Holds (f table)) :
    land.Contains depth ⟨world.heap, world.frames.modifyTop f, world.output⟩ := by
  obtain ⟨heap, ⟨list, size, hsize⟩, output⟩ := world
  cases list with
  | nil => exact h
  | cons top rest =>
    refine ⟨h.heap, fun frame hframe => ?_⟩
    cases depth with
    | zero => cases hframe
    | succ depth =>
      rcases mem_cons.1 hframe with rfl | hold
      · exact hf top.values (h.frames top mem_cons_self)
      · exact h.frames frame (mem_cons_of_mem _ hold)

private theorem add (name : String) {value : Value} (hvalue : land.Holds value) :
    land.Contains depth ⟨world.heap, world.frames.add name value, world.output⟩ :=
  h.modifyTop fun _ htable => htable.put name hvalue

/-! ## Names -/

variable {ctx : Context} {name : String} {id : NodeId} {env : ScopeId} {value : Value}

omit h in
theorem holds_frameValue? (h : land.Contains (depth + 1) world)
    (hvalue : ctx.frameValue? world name = some value) : land.Holds value := by
  unfold Context.frameValue? at hvalue
  split at hvalue
  · obtain ⟨frame, htop, hfound⟩ := Option.bind_eq_some_iff.1 hvalue
    obtain ⟨rest, hlist⟩ := List.head?_eq_some_iff.1 htop
    refine Table.Holds.get? (h.frames frame ?_) hfound
    rw [hlist]
    exact mem_cons_self
  · cases hvalue

private theorem holds_readGlobal (hvalue : world.readGlobal name env = .ok value) :
    land.Holds value := by
  unfold World.readGlobal at hvalue
  split at hvalue
  · rename_i hfound
    cases hvalue
    exact (h.heap.bindings globalScope land.global).get? hfound
  · cases hvalue

omit h in
private theorem holds_read (h : land.Contains (depth + 1) world)
    (henv : land.Has (.scope env)) (hvalue : ctx.read world name id env = .ok value) :
    land.Holds value := by
  unfold Context.read at hvalue
  split at hvalue
  · rename_i hframe
    cases hvalue
    exact h.holds_frameValue? hframe
  · split at hvalue
    · exact h.heap.holds_getAt henv hvalue
    · exact h.holds_readGlobal hvalue

private theorem has_scopeSlot (henv : land.Has (.scope env)) {scope : ScopeId}
    (hscope : ctx.scopeSlot world name id env = .ok scope) :
    land.Has (.scope scope) := by
  unfold Context.scopeSlot at hscope
  split at hscope
  · exact h.heap.has_slotAt henv hscope
  · cases hread : world.readGlobal name env with
    | error cause =>
      rw [hread] at hscope
      cases hscope
    | ok found =>
      rw [hread] at hscope
      cases hscope
      exact land.global

private theorem assign (henv : land.Has (.scope env)) {slots : Slots}
    (hslots : ctx.slots world name id env = .ok slots) (hvalue : land.Holds value) :
    land.Contains depth (world.assign slots name value) := by
  have hframes : land.Contains depth
      ⟨world.heap, if slots.frame then world.frames.add name value else world.frames,
        world.output⟩ := by
    split
    · exact h.add name hvalue
    · exact h
  obtain ⟨frame, scope⟩ := slots
  cases scope with
  | none => exact hframes
  | some scope =>
    refine ⟨h.heap.define ?_ name hvalue, hframes.frames⟩
    unfold Context.slots at hslots
    simp only at hslots
    split at hslots
    · rename_i hscope
      cases hslots
      exact h.has_scopeSlot henv hscope
    · split at hslots <;> cases hslots

/-! ## Properties and methods -/

private theorem superMethod (henv : land.Has (.scope env))
    (hmethod : world.superMethod name env = .ok (method, value)) :
    land.Has (.scope method.closure) ∧ land.Holds value := by
  obtain ⟨superclass, hsuper, hthis, hfound⟩ := World.superMethod_eq_ok_iff.1 hmethod
  exact ⟨has_of_findMethod? (h.heap.holds_lookup? henv hsuper) hfound,
    h.heap.holds_lookup? henv hthis⟩

private theorem bind (hmethod : land.Has (.scope method.closure))
    (hvalue : land.Holds value) :
    land.Contains depth (world.bind method value).2 ∧
      land.Holds (world.bind method value).1 :=
  ⟨⟨h.heap.bind hmethod hvalue, h.frames⟩, h.heap.holds_bind method value⟩

private theorem declareClass (henv : land.Has (.scope env)) (decl : ClassDecl)
    {superclass : Option Class} (hsuper : ∀ cls ∈ superclass, land.Holds (.cls cls)) :
    land.Contains depth (Machine.declareClass world [] env decl superclass).world := by
  have hnothing : land.Holds .nothing := holds_of_cells_eq_nil rfl
  have hcleared := h.heap.define henv decl.name.node hnothing
  cases superclass with
  | none =>
    obtain ⟨hmade, hcls⟩ := hcleared.makeClass decl.name.node hsuper decl.methods henv
    exact (h.add _ hcls).withHeap (hmade.define henv _ hcls) _
  | some superclass =>
    have htable : Table.Holds land.Holds [("super", .cls superclass)] :=
      forall_mem_singleton.2 (hsuper superclass rfl)
    obtain ⟨hmade, hcls⟩ :=
      (hcleared.makeChild henv htable).makeClass decl.name.node hsuper decl.methods
      hcleared.has_newScope
    exact (h.add _ hcls).withHeap (hmade.define henv _ hcls) _

end Contains

/-! ## States inside a territory -/

open Machine

/-- What is asked of states above the given entries: environments and values are inside,
and the frames of the calls above hold nothing from outside, nor does the one
beneath. -/
def regime (land : Territory old) (base : List Pending) : Regime where
  base := base
  world depth _ world :=
    leaves base ≤ depth ∧ land.Contains (depth - leaves base + 1) world
  expr _ env _ := land.Has (.scope env)
  stmt _ env _ := land.Has (.scope env)
  value _ value := land.Holds value
  scope env := land.Has (.scope env)
  declares env _ := land.Has (.scope env)
  assigns env _ := land.Has (.scope env)
  capability _ := True
  cause _ := True
  place _ := True
  heir _ := True
  made _ _ _ _ := True

section

variable {base : List Pending} {origins opened : List Origin} {new : World}

private theorem change (hworld : (land.regime base).world depth origins world)
    (hnew : land.Contains (depth - leaves base + 1) new) :
    (land.regime base).Change depth origins world opened new :=
  ⟨⟨hworld.1, hnew⟩, id, id, id⟩

theorem upheld (land : Territory old) (base : List Pending) (ctx : Context) :
    (land.regime base).Upheld ctx where
  part hexpr _ := hexpr
  span _ := trivial
  sight hexpr := hexpr
  target hexpr := hexpr
  marked _ _ := trivial
  operand hstmt _ := hstmt
  branch hstmt _ := hstmt
  name hstmt _ := hstmt
  heir _ := trivial
  plain := holds_of_isComparable
  wrapped hcls := hcls
  native _ := trivial
  fault _ := holds_of_cells_eq_nil rfl
  raised _ := trivial
  failure _ := trivial
  read hworld henv hread := hworld.2.holds_read henv hread
  main hworld hmain := hworld.2.holds_readGlobal hmain
  this hworld henv hthis := hworld.2.heap.holds_lookup? henv hthis
  receiver hworld hfunction hthis :=
    hworld.2.heap.holds_getAt (holds_function.1 hfunction) hthis
  field hworld hinst hfield := (hworld.2.heap.holdsTable_fieldsOf hinst).get? hfield
  push name hworld := by
    refine ⟨Nat.le_succ_of_le hworld.1, ?_⟩
    rw [Nat.succ_sub hworld.1]
    exact hworld.2.push name
  pop hle hworld := by
    have hdepth := @Nat.sub_add_comm _ 1 _ hle
    exact ⟨hle, Contains.pop (hdepth ▸ hworld.2)⟩
  print output hworld := ⟨hworld.1, hworld.2.withHeap hworld.2.heap output⟩
  arguments hworld hargs :=
    ⟨hworld.1, hworld.2.modifyTop fun _ htable =>
      htable.putAll (Table.Holds.namedArguments hargs)⟩
  draw hworld := change hworld (hworld.2.withHeap hworld.2.heap.draw _)
  declare hworld henv hvalue :=
    change hworld
      ((hworld.2.add _ hvalue).withHeap (hworld.2.heap.define henv _ hvalue) _)
  assign hworld henv _ hslots hvalue :=
    change hworld (hworld.2.assign henv hslots hvalue)
  setField name hworld hinst hvalue :=
    change hworld (hworld.2.withHeap (hworld.2.heap.setField hinst name hvalue) _)
  block hworld henv :=
    ⟨change hworld (hworld.2.withHeap (hworld.2.heap.makeChild henv .nil) _), fun _ _ =>
      hworld.2.heap.has_newScope⟩
  function hworld henv :=
    have hfunction : land.Holds
      (.callable (.function (Heap.makeFunction _ _ _ false).1)) := holds_function.2 henv
    change hworld (hworld.2.withHeap (hworld.2.heap.draw.define henv _ hfunction) _)
  declareClass hworld henv _ hsuper _ :=
    change hworld (hworld.2.declareClass henv _ fun cls hcls => (hsuper cls hcls).2)
  call hworld hfunction hargs :=
    ⟨change hworld
      (hworld.2.withHeap
        (hworld.2.heap.makeChild (holds_function.1 hfunction) (.zip _ hargs)) _),
      fun _ _ => hworld.2.heap.has_newScope⟩
  construct cls hworld hcls :=
    ⟨change hworld (hworld.2.withHeap (hworld.2.heap.makeInstance cls) _),
      hworld.2.heap.holds_makeInstance hcls⟩
  bind hworld hinst hmethod :=
    have hbound :=
      hworld.2.bind (has_of_findMethod? (holds_inst.1 hinst).2 hmethod) hinst
    ⟨change hworld hbound.1, hbound.2⟩
  super hworld henv hmethod :=
    have hfound := hworld.2.superMethod henv hmethod
    have hbound := hworld.2.bind hfound.1 hfound.2
    ⟨change hworld hbound.1, hbound.2⟩

end

end Territory

end Treewalk
