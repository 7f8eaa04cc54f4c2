import Treewalk.Proofs.Machine.Writes
import Treewalk.Proofs.Scope.LayoutStep
import Treewalk.Proofs.Scope.Sourced

/-!
# Runs that come from the code

A run that starts from code and from a world that are laid out stays laid out
(`Layout.governs_of_traced`), and what `this` and `super` are bound to in a scope never
changes (`Layout.exists_governs_of_reaches`). All that a state holds is then known to
come from the code (`Layout.Governs.hasValue`).

`Program.layout` is the layout of a run of one program from the beginning. A program
that was read declares and assigns no reserved name, so this layout is a proper one.
-/

namespace Treewalk

open List

variable {program : Program}

/-- A context in which nothing is resolved. -/
def Machine.bareContext : Context :=
  ⟨.frames, Settings.default.run, [], .empty, .silent⟩

namespace Layout

open Machine

variable {layout : Layout} {ctx : Context} {origins : List Origin} {m : Machine}
  {value : Value}

/-! ## Starts -/

/-- The heap before any run: the names of capabilities are not reserved. -/
theorem keeps_start (natives : List Native) :
    layout.Keeps [.globals] (World.start (.start natives)) := by
  have hlayered : Heap.empty.Layered :=
    ⟨⟨fun _ _ hscope => absurd hscope not_mem_nil, fun _ _ hscope =>
      absurd hscope not_mem_nil⟩, fun _ => nodup_nil⟩
  have hentries : ∀ entry ∈ natives.map fun native =>
    (native.name, Value.callable (.native native)),
      ¬Reserved entry.1 := by
    intro entry hentry
    obtain ⟨native, -, rfl⟩ := mem_map.1 hentry
    cases native <;> (rintro (hname | hname) <;> simp [Native.name] at hname)
  have hunbound : ∀ name, Reserved name →
      ((Heap.start natives).bindings globalScope).get? name = none := by
    intro name hname
    cases hbound : ((Heap.start natives).bindings globalScope).get? name with
    | none => rfl
    | some value =>
      have hglobal := Heap.bindings_makeScope_self Heap.empty []
        (natives.map fun native => (native.name, Value.callable (.native native)))
      rw [show (Heap.start natives).bindings globalScope = _ from hglobal] at hbound
      exact absurd hname (hentries _ (Table.mem_of_get? hbound))
  refine ⟨hlayered.makeChild 0 _, rfl, rfl, fun scope origin horigin => ?_,
    .start fun _ _ => trivial⟩
  · obtain ⟨rfl, rfl⟩ : scope = globalScope ∧ Origin.globals = origin := by
      cases scope with
      | zero => exact ⟨rfl, Option.some.inj horigin⟩
      | succ scope => cases horigin
    exact ⟨hunbound _ (.inl rfl), hunbound _ (.inr rfl)⟩

/-- A world between two runs: the frames of the last one are gone. -/
theorem Keeps.restart {world : World} (h : layout.Keeps origins world) :
    layout.Keeps origins (World.start world.heap) := by
  refine ⟨h.layered, h.size, h.root, h.scopes, h.values.heap, fun frame hframe => ?_⟩
  obtain rfl := mem_singleton.1 hframe
  exact .nil

/-- A task of a program whose spots the layout has. -/
theorem governs_machine {heap : Heap} (hworld : layout.Keeps origins (World.start heap))
    (hprogram : ∀ spot ∈ program.spots, layout.spot spot) {use : Use}
    {make : Program → Task} (hmake : use.task? = some make) :
    layout.Governs origins ((make program).machine heap) := by
  have hstmts : ∀ stmt ∈ program.stmts, layout.HasStmt ⟨heap, origins⟩
      globalScope stmt :=
    fun stmt hstmt => hasStmt_of_mem hworld.root nofun hprogram hstmt
  have hdone : layout.regime.Waits ⟨heap, origins⟩ [] := Regime.waits_nil rfl
  have hscript : layout.Governs origins (.ofScript heap program) :=
    ⟨hworld, trivial, hdone.push (.seq program.stmts globalScope) hstmts⟩
  cases use with
  | prepare => cases hmake
  | line =>
    cases hmake
    unfold Task.ofLine
    split
    · rename_i span expr hline
      refine ⟨hworld, (hstmts (.expression span expr) (by simp [hline])).evaluates
        fun around spot hspot => ?_, hdone⟩
      simp [Stmt.spots, hspot]
    · exact hscript
  | run =>
    cases hmake
    simp only [Task.machine, ofProgram]
    split
    · refine ⟨hworld, trivial, (hdone.push .enterMain trivial).push (.seq _ _)
        fun stmt hstmt => ?_⟩
      exact hstmts stmt (mem_filter.1 hstmt).1
    · exact hscript

/-! ## Runs -/

/-- A run keeps its states laid out, with the origins of the scopes that it opened. -/
theorem governs_of_traced (hproper : layout.Proper) {start : Machine}
    (hstart : layout.Governs [.globals] start)
    (hdeclared : ∀ {m : Machine} {origins : List Origin}, Traced ctx start m origins →
      ∀ span decl env rest superclass, m.control = .value (.cls superclass) →
      m.pending = .superclass span decl env :: rest →
      layout.declared decl superclass m.world.heap.scopes.size)
    (h : Traced ctx start m origins) : layout.Governs origins m := by
  induction h with
  | start => exact hstart
  | step htraced ih => exact ih.step hproper (hdeclared htraced)

private theorem Governs.not_reserved (hproper : layout.Proper)
    (h : layout.Governs origins m) {scope : ScopeId} {name : String}
    (hwrites : m.Writes scope name) : ¬Reserved name := by
  rcases hwrites with hdeclares | ⟨env, hassigns, -⟩
  · exact Regime.Governs.declares (hproper.upheld bareContext) h rfl hdeclares
  · exact Regime.Governs.assigns h rfl hassigns

/-- A transition leaves what `this` and `super` are bound to. -/
theorem Governs.grows (hproper : layout.Proper) (h : layout.Governs origins m) :
    History.Grows ⟨m.world.heap, origins⟩
      ⟨(m.step ctx).world.heap, origins ++ m.opened ctx⟩ :=
  ⟨(step_edits ctx m).mono fun _ _ hwrites => h.not_reserved hproper hwrites,
    prefix_append _ _⟩

/-- A run keeps its states laid out, and leaves what `this` and `super` are bound to. -/
theorem exists_governs_of_reaches (hproper : layout.Proper)
    (hdeclared : ∀ decl superclass scope, layout.declared decl superclass scope)
    {start : Machine} (hstart : layout.Governs origins start)
    (h : Reaches ctx start m) : ∃ origins', layout.Governs origins' m ∧
      History.Grows ⟨start.world.heap, origins⟩ ⟨m.world.heap, origins'⟩ := by
  induction h with
  | start => exact ⟨origins, hstart, .refl _⟩
  | step _ ih =>
    obtain ⟨origins', hgoverns, hgrows⟩ := ih
    exact ⟨_, hgoverns.step hproper fun _ decl _ _ superclass _ _ =>
      hdeclared decl superclass _, hgrows.trans (hgoverns.grows hproper)⟩

private theorem hasValue_of_mem_control {log : History} {control : Control}
    (h : layout.regime.HasControl log control)
    (hvalue : .value value ∈ control.contents) : layout.HasValue log value := by
  cases control with
  | native name args =>
    simp only [Control.contents, mem_cons, reduceCtorEq, mem_map, Content.value.injEq,
      exists_eq_right, false_or] at hvalue
    exact h.2 value hvalue
  | value held =>
    cases mem_singleton.1 hvalue
    exact h
  | flow flow =>
    cases flow with
    | ret held =>
      cases mem_singleton.1 hvalue
      exact h
    | _ => cases hvalue
  | _ => simp [Control.contents, Stmt.contents] at hvalue

private theorem hasValue_of_mem_entry {log : History} {entry : Pending}
    (h : layout.regime.HasEntry log entry) (hvalue : .value value ∈ entry.contents) :
    layout.HasValue log value := by
  cases entry with
  | argument call done current rest =>
    obtain ⟨span, name, callee, env⟩ := call
    obtain ⟨⟨-, -, hcallee⟩, hdone, -⟩ := h
    simp only [Pending.contents, append_assoc, mem_append, mem_map, Content.value.injEq,
      reduceCtorEq, and_false, exists_false, or_false] at hvalue
    rcases hvalue with hvalue | ⟨arg, harg, rfl⟩
    · cases callee with
      | found found =>
        cases mem_singleton.1 hvalue
        exact hcallee
      | native => cases mem_singleton.1 hvalue
      | named access id => cases hvalue
    · exact hdone arg harg
  | binaryRight span left op =>
    cases mem_singleton.1 hvalue
    exact h.2
  | setField inst name =>
    cases mem_singleton.1 hvalue
    exact h
  | result function =>
    cases mem_singleton.1 hvalue
    exact h
  | construct inst =>
    cases mem_singleton.1 hvalue
    exact h
  | branch onTrue onFalse env =>
    cases onFalse <;> simp [Pending.contents, Stmt.contents] at hvalue
  | _ => simp [Pending.contents, Stmt.contents, Stmt.listContents] at hvalue

/-- Every value that a state holds comes from the code. -/
theorem Governs.hasValue (h : layout.Governs origins m)
    (hvalue : .value value ∈ m.contents) :
    layout.HasValue ⟨m.world.heap, origins⟩ value := by
  rcases mem_append.1 hvalue with hvalue | hvalue
  · exact h.world.values.of_mem_contents hvalue
  rcases mem_append.1 hvalue with hvalue | hvalue
  · exact hasValue_of_mem_control h.control hvalue
  · obtain ⟨entry, hentry, hvalue⟩ := mem_flatMap.1 hvalue
    exact hasValue_of_mem_entry (h.pending.all rfl entry hentry) hvalue

end Layout

/-! ## The layout of a program -/

/-- A run of a program from the beginning. -/
def Program.layout (program : Program) : Layout where
  spot spot := spot ∈ program.spots
  sheltered := False
  declared _ _ _ := True

theorem Source.proper_of_read {n next : NodeId} {source : String}
    (h : Source.read n source = (.ok program, next)) :
    program.layout.Proper :=
  ⟨fun _ hspot _ hname => Source.not_reserved_of_read h hspot hname, fun _ =>
    Program.paired_of_mem_spots, False.elim⟩

end Treewalk
