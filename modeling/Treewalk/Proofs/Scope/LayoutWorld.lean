import Treewalk.Proofs.Scope.Layout
import Treewalk.Proofs.Scope.Trace

/-!
# Worlds that come from the code

What the machine does to its world keeps the world laid out: bindings of names that are
not reserved, fields, frames, new scopes with the origins that they are made for, and
methods that are bound to instances.

## Main results

* `Layout.Keeps.methodView`: in a method of a class that has a superclass, `this` is
  what the innermost method was bound to, and `super` is what the scope around the
  methods of the class binds it to, from blocks and functions too.
* `Layout.Keeps.bindSuper`: the method that `super` gives is held by a class of the
  code, and it is bound to an instance. If the layout is sheltered, then this instance
  inherits from the class that holds the method.
-/

namespace Treewalk

open List

variable {name : String} {value : Value} {decl : ClassDecl} {around : List Origin}
  {closure : ScopeId} {method : FunctionDecl}

namespace Layout

variable {layout : Layout}

namespace Keeps

variable {origins : List Origin} {world : World} {env : ScopeId}

variable (h : layout.Keeps origins world)

include h

/-- Where no scope is made, only the values in the heap have to be looked at again. -/
private theorem edit {heap : Heap}
    (hedits : world.heap.Edits (fun _ name => ¬Reserved name) heap)
    (hsize : heap.scopes.size = world.heap.scopes.size)
    (hheap : (∀ value, layout.HasValue ⟨world.heap, origins⟩ value →
      layout.HasValue ⟨heap, origins⟩ value) →
      heap.Holds (layout.HasValue ⟨heap, origins⟩)) :
    layout.Keeps origins ⟨heap, world.frames, world.output⟩ := by
  have hgrows : History.Grows ⟨world.heap, origins⟩ ⟨heap, origins⟩ :=
    .of_edits hedits origins
  have hmono := fun value (hvalue : layout.HasValue ⟨world.heap, origins⟩ value) =>
    hvalue.mono hgrows
  refine ⟨h.layered.edits hedits, h.size.trans hsize.symm, h.root.mono hgrows,
    fun scope origin horigin => ?_, hheap hmono, fun frame hframe =>
    (h.values.frames frame hframe).mono hmono⟩
  exact (h.scopes scope origin horigin).mono hgrows
    (h.size ▸ (List.getElem?_eq_some_iff.1 horigin).1)

/-- A new scope, with what it was opened for. -/
theorem child (env : ScopeId) {table : Table Value} (origin : Origin)
    (htable : Table.Holds (layout.HasValue ⟨world.heap, origins⟩) table)
    (hscope : layout.ScopeSound ⟨(world.heap.makeChild env table).2,
      origins ++ [origin]⟩ world.heap.scopes.size origin) :
    layout.Keeps (origins ++ [origin])
      ⟨(world.heap.makeChild env table).2, world.frames, world.output⟩ := by
  have hgrows := History.Grows.makeChild world.heap origins env table origin
  refine ⟨h.layered.edits hgrows.edits, ?_, h.root.mono hgrows,
    fun scope other hother => ?_, ?_⟩
  · simp [Heap.makeChild, Heap.makeScope, h.size]
  · by_cases hlt : scope < origins.length
    · rw [List.getElem?_append_left hlt] at hother
      exact (h.scopes scope other hother).mono hgrows (h.size ▸ hlt)
    · obtain rfl : scope = origins.length := by
        have hbound := (List.getElem?_eq_some_iff.1 hother).1
        rw [length_append, length_singleton] at hbound
        exact Nat.le_antisymm (Nat.le_of_lt_succ hbound) (Nat.not_lt.1 hlt)
      obtain rfl : origin = other := by simpa using hother
      rw [h.size]
      exact hscope
  · have hmono := fun value (hvalue : layout.HasValue ⟨world.heap, origins⟩ value) =>
      hvalue.mono hgrows
    exact ⟨(h.values.heap.mono hmono).makeChild env (htable.mono hmono),
      fun frame hframe => (h.values.frames frame hframe).mono hmono⟩

theorem define (env : ScopeId) (hname : ¬Reserved name)
    (hvalue : layout.HasValue ⟨world.heap, origins⟩ value) :
    layout.Keeps origins
      ⟨world.heap.define env name value, world.frames, world.output⟩ :=
  h.edit (.define .none hname value) (by simp [Heap.define]) fun hmono =>
    (h.values.heap.mono hmono).define env name (hmono value hvalue)

theorem draw : layout.Keeps origins ⟨world.heap.draw.2, world.frames, world.output⟩ :=
  h.edit (.draw .none) rfl fun hmono =>
    ⟨(h.values.heap.mono hmono).scopes, (h.values.heap.mono hmono).fields⟩

theorem makeClass (name : String) (superclass : Option Class)
    (methods : List FunctionDecl) (closure : ScopeId) :
    layout.Keeps origins ⟨(world.heap.makeClass name superclass methods closure).2,
      world.frames, world.output⟩ := by
  refine h.edit (.makeClass .none name superclass methods closure) ?_ fun hmono =>
    (h.values.heap.mono hmono).makeClass name superclass methods closure
  obtain ⟨stamp, hstamp⟩ := world.heap.makeClass_heap name superclass methods closure
  rw [hstamp]

theorem makeInstance (cls : Class) :
    layout.Keeps origins
      ⟨(world.heap.makeInstance cls).2, world.frames, world.output⟩ :=
  h.edit (.makeInstance .none cls) rfl fun hmono =>
    (h.values.heap.mono hmono).makeInstance cls

theorem setField (inst : Instance) (name : String)
    (hvalue : layout.HasValue ⟨world.heap, origins⟩ value) :
    layout.Keeps origins
      ⟨world.heap.setField inst name value, world.frames, world.output⟩ :=
  h.edit (.setField .none inst name value) rfl fun hmono =>
    (h.values.heap.mono hmono).setField inst name (hmono value hvalue)

/-- Other frames and more output. -/
theorem withFrames {frames : Frames} (output : String)
    (hframes : World.Holds (layout.HasValue ⟨world.heap, origins⟩)
      ⟨world.heap, frames, world.output⟩) :
    layout.Keeps origins ⟨world.heap, frames, output⟩ :=
  ⟨h.layered, h.size, h.root, h.scopes, hframes.heap, hframes.frames⟩

theorem assign (slots : Slots) (hname : ¬Reserved name)
    (hvalue : layout.HasValue ⟨world.heap, origins⟩ value) :
    layout.Keeps origins (world.assign slots name value) ∧
      History.Grows ⟨world.heap, origins⟩
        ⟨(world.assign slots name value).heap, origins⟩ := by
  have hframes : layout.Keeps origins
      ⟨world.heap, if slots.frame then world.frames.add name value else world.frames,
        world.output⟩ := by
    split
    · exact h.withFrames _ (h.values.add name hvalue)
    · exact h
  unfold World.assign
  cases slots.scope with
  | none => exact ⟨hframes, .refl _⟩
  | some scope =>
    exact ⟨hframes.define scope hname hvalue,
      .of_edits (.define .none hname value) origins⟩

/-- A method of a class is bound to an instance. -/
theorem bind (hproper : layout.Proper) {cls : Class}
    (hcls : layout.ClassFrom ⟨world.heap, origins⟩ cls decl around closure)
    {method : Function} (hmethod : cls.methods.get? name = some method)
    {inst : Instance} (hinst : layout.HasValue ⟨world.heap, origins⟩ (.inst inst))
    (hholder : layout.sheltered → cls ∈ inst.cls.lineage) :
    layout.Keeps (origins ++ [.receiver method.decl])
      (world.bind method (.inst inst)).2 ∧ History.Grows ⟨world.heap, origins⟩
        ⟨(world.bind method (.inst inst)).2.heap, origins ++ [.receiver method.decl]⟩ ∧
      layout.HasValue
        ⟨(world.bind method (.inst inst)).2.heap, origins ++ [.receiver method.decl]⟩
        (world.bind method (.inst inst)).1 := by
  obtain rfl := hcls.closures name method hmethod
  obtain ⟨hspots, hparams⟩ := hcls.functionFrom hproper hmethod
  have hgrows :=
    History.Grows.makeChild world.heap origins method.closure [("this", .inst inst)]
    (.receiver method.decl)
  have hbindings :=
    Heap.bindings_makeScope_self world.heap (world.heap.chain method.closure)
    [("this", Value.inst inst)]
  have hchain :=
    world.heap.chain_makeScope_self (world.heap.chain method.closure)
    [("this", Value.inst inst)]
  have hscope : layout.ScopeSound
      ⟨(world.heap.makeChild method.closure [("this", .inst inst)]).2,
        origins ++ [.receiver method.decl]⟩
      world.heap.scopes.size (.receiver method.decl) := by
    refine ⟨inst, ?_, ?_, fun hsheltered => ?_⟩
    · exact (congrArg (Table.get? "this") hbindings).trans rfl
    · exact (congrArg (Table.get? "super") hbindings).trans rfl
    · obtain ⟨outer, houter⟩ := Heap.chain_eq_cons hcls.sees.chain_ne_nil
      refine ⟨cls, hholder hsheltered, name, method, hmethod, rfl, outer, ?_⟩
      rw [← houter]
      exact hchain
  have htable : Table.Holds (layout.HasValue ⟨world.heap, origins⟩)
      [("this", .inst inst)] :=
    forall_mem_singleton.2 hinst
  have hkeeps := h.child method.closure _ htable hscope
  have hdrawn : History.Grows
      ⟨(world.heap.makeChild method.closure [("this", .inst inst)]).2,
        origins ++ [.receiver method.decl]⟩
      ⟨(world.heap.makeChild method.closure [("this", .inst inst)]).2.draw.2,
        origins ++ [.receiver method.decl]⟩ :=
    .of_edits (.draw .none) _
  refine ⟨hkeeps.draw, hgrows.trans hdrawn, .receiver method.decl :: decl.inside around,
    ?_, hspots, hparams, .inl rfl⟩
  exact (hcls.sees.makeChild h.size _ _).mono hdrawn

/-! ## Receivers and superclasses -/

private theorem origin {env : ScopeId} {around : List Origin}
    (hsees : Around ⟨world.heap, origins⟩ env around) {scope : ScopeId}
    (hscope : scope ∈ world.heap.chain env) :
    ∃ origin, origins[scope]? = some origin ∧
      layout.ScopeSound ⟨world.heap, origins⟩ scope origin := by
  have hmem : origins[scope]? ∈ (around ++ [Origin.globals]).map some := by
    rw [← hsees]
    exact mem_map_of_mem hscope
  obtain ⟨origin, -, horigin⟩ := mem_map.1 hmem
  exact ⟨origin, horigin.symm, h.scopes scope origin horigin.symm⟩

/-- `this` is an instance wherever it is found. -/
theorem receiver {env : ScopeId} {around : List Origin}
    (hsees : Around ⟨world.heap, origins⟩ env around) {receiver : Value}
    (hfound : world.heap.lookup? env "this" = some receiver) :
    ∃ inst, receiver = .inst inst := by
  obtain ⟨scope, hscope, hbound⟩ := exists_of_findSome?_eq_some hfound
  obtain ⟨origin, -, hsound⟩ := h.origin hsees hscope
  cases origin with
  | receiver decl =>
    obtain ⟨inst, hthis, -, -⟩ := hsound
    exact ⟨inst, Option.some.inj (hbound.symm.trans hthis)⟩
  | superclass decl =>
    obtain ⟨cls, -, hnone, -⟩ := hsound
    cases hbound.symm.trans hnone
  | _ => cases hbound.symm.trans hsound.1

private theorem findSome?_bodies {scopes : List ScopeId}
    (hscopes : ∀ scope ∈ scopes, ∃ origin, origins[scope]? = some origin ∧
      origin.isBody = true) (hname : Reserved name) :
    (scopes.findSome? fun scope => (world.heap.bindings scope).get? name) = none := by
  refine List.findSome?_eq_none_iff.2 fun scope hscope => ?_
  obtain ⟨origin, horigin, hbody⟩ := hscopes scope hscope
  exact (h.scopes scope origin horigin).get?_eq_none hbody hname

/-- In a method of a class that has a superclass, `this` and `super` are what the method
view says. -/
theorem methodView (hsees : Around ⟨world.heap, origins⟩ env around)
    (hpaired : Origin.Paired around)
    (hmethod : Origin.subclassMethod? around = some (method, decl)) :
    ∃ receiver closure inst superclass,
      MethodView ⟨world.heap, origins⟩ env method decl receiver closure inst
        superclass ∧
      world.heap.lookup? env "this" = some (.inst inst) ∧
      world.heap.lookup? env "super" = some (.cls superclass) := by
  obtain ⟨inner, outer, haround, hinner⟩ := hpaired.exists_of_subclassMethod? hmethod
  obtain ⟨near, body, rest, hchain, hbody, hnear, hrest⟩ := hsees.split haround
  obtain ⟨receiver, rest, rfl, hreceiver, hrest⟩ := map_eq_cons_iff.1 hrest
  obtain ⟨closure, far, rfl, hclosure, -⟩ := map_eq_cons_iff.1 hrest
  obtain ⟨inst, hthis, hnosuper, -⟩ := h.scopes receiver _ hreceiver
  obtain ⟨superclass, hsuper, -, -⟩ := h.scopes closure _ hclosure
  have hbodies : ∀ scope ∈ near ++ [body], ∃ origin, origins[scope]? = some origin ∧
      origin.isBody = true := by
    intro scope hscope
    rcases mem_append.1 hscope with hscope | hscope
    · have hmem : origins[scope]? ∈ inner.map some := by
        rw [← hnear]
        exact mem_map_of_mem hscope
      obtain ⟨origin, horigin, heq⟩ := mem_map.1 hmem
      exact ⟨origin, heq.symm, hinner origin horigin⟩
    · obtain rfl := mem_singleton.1 hscope
      exact ⟨_, hbody, rfl⟩
  have hsplit : world.heap.chain env = (near ++ [body]) ++ receiver ::
      closure :: far := by
    rw [append_assoc]
    exact hchain
  refine ⟨receiver, closure, inst, superclass, ⟨⟨near, body, far, hchain,
    fun scope hscope => hbodies scope (mem_append_left _ hscope), hbody⟩, hreceiver,
      hclosure, hthis, hsuper⟩,
    ?_, ?_⟩
  · rw [Heap.lookup?, hsplit, List.findSome?_append,
      h.findSome?_bodies hbodies (.inl rfl), Option.none_or, List.findSome?_cons, hthis]
  · rw [Heap.lookup?, hsplit, List.findSome?_append,
      h.findSome?_bodies hbodies (.inr rfl), Option.none_or, List.findSome?_cons,
      hnosuper, List.findSome?_cons, hsuper]

/-- If the receiver is known to have the method that runs, then it also inherits from
the superclass. -/
private theorem superclass_mem_lineage (hsheltered : layout.sheltered)
    {receiver : ScopeId} {inst : Instance} {superclass : Class}
    (hview : MethodView ⟨world.heap, origins⟩ env method decl receiver closure inst
      superclass) (hinst : layout.HasValue ⟨world.heap, origins⟩ (.inst inst)) :
    superclass ∈ inst.cls.lineage := by
  obtain ⟨near, body, far, hchain, -, -⟩ := hview.chain
  obtain ⟨inst', hthis, -, hholder⟩ := h.scopes receiver _ hview.receives
  obtain rfl : inst = inst' := by simpa using hview.this.symm.trans hthis
  obtain ⟨cls, hcls, name, found, hfound, -, outer, hsees⟩ := hholder hsheltered
  obtain ⟨clsDecl, around, scope, hfrom⟩ := hinst.1 cls hcls
  -- the method sees the scope around the methods of its own class, and this is the one
  -- that binds `super`
  have hclosure : scope = closure := by
    have hsplit : world.heap.chain env = (near ++ [body]) ++ receiver ::
        closure :: far := by
      rw [hchain, append_assoc]
      rfl
    have hrest := h.layered.eq_of_chain hsplit hsees
    exact (hfrom.closures name found hfound).symm.trans (List.cons.inj hrest).1
  subst hclosure
  obtain ⟨ancestor, hancestor⟩ := hfrom.exists_superclass hview.declares
  obtain rfl : ancestor = superclass := by
    simpa using (hfrom.super ancestor hancestor).symm.trans hview.super
  exact Class.lineage_subset_of_mem hcls
    (Class.lineage_subset hancestor ancestor.self_mem_lineage)

/-- The method that `super` gives is bound to the receiver, and this makes a scope. -/
theorem bindSuper (hproper : layout.Proper) {span : Span} {name : Name}
    (hexpr : layout.HasExpr ⟨world.heap, origins⟩ env (.super span name))
    {method : Function} {receiver : Value}
    (hfound : world.superMethod name.node env = .ok (method, receiver)) :
    layout.Keeps (origins ++ [.receiver method.decl]) (world.bind method receiver).2 ∧
      History.Grows ⟨world.heap, origins⟩ ⟨(world.bind method receiver).2.heap,
        origins ++ [.receiver method.decl]⟩ ∧
      layout.HasValue
        ⟨(world.bind method receiver).2.heap, origins ++ [.receiver method.decl]⟩
        (world.bind method receiver).1 := by
  obtain ⟨around, hsees, hspots⟩ := hexpr
  obtain ⟨superclass, hsuper, hthis, hmethod⟩ := World.superMethod_eq_ok_iff.1 hfound
  obtain ⟨inst, rfl⟩ := h.receiver hsees hthis
  obtain ⟨cls, hcls, hheld⟩ := Class.exists_of_findMethod? hmethod
  have hclass : layout.HasClass ⟨world.heap, origins⟩ superclass :=
    h.values.heap.lookup? hsuper
  obtain ⟨decl, outside, closure, hfrom⟩ := hclass cls hcls
  refine h.bind hproper hfrom hheld (h.values.heap.lookup? hthis) fun hsheltered => ?_
  have hspot := hspots _ (Expr.mem_spots_self around _)
  obtain ⟨_, haround⟩ :=
    Option.isSome_iff_exists.1 (hproper.supers hsheltered span name around hspot)
  obtain ⟨_, _, inst', superclass', hview, hthis', hsuper'⟩ :=
    h.methodView hsees (hproper.paired _ hspot) haround
  obtain rfl : inst = inst' := by simpa using hthis.symm.trans hthis'
  obtain rfl : superclass = superclass' := by simpa using hsuper.symm.trans hsuper'
  exact Class.lineage_subset_of_mem
    (h.superclass_mem_lineage hsheltered hview (h.values.heap.lookup? hthis)) hcls

end Keeps

end Layout

end Treewalk
