import Treewalk.Proofs.Scope.LayoutWorld

/-!
# Transitions and the code they come from

The operations of the machine uphold what a layout asks of states
(`Layout.Proper.upheld`). So every transition keeps the state laid out, with the origins
of the scopes that it opens appended: `Layout.Governs.step`. What this means for runs is
in `Treewalk.Proofs.Scope.LayoutRun`.
-/

namespace Treewalk

open List

variable {decl : ClassDecl}

private theorem Stmt.spots_subset_of_operand {stmt : Stmt} {expr : Expr}
    (h : expr ∈ stmt.operands) (around : List Origin) :
    expr.spots around ⊆ stmt.spots around := by
  cases stmt with
  | classDecl span decl =>
    rw [Stmt.spots, ClassDecl.spots_eq, Option.mem_toList.1 h]
    exact subset_cons_of_subset _ (subset_append_left _ _)
  | branch span cond onTrue onFalse =>
    obtain rfl := mem_singleton.1 h
    cases onFalse <;>
      (rw [Stmt.spots]; exact subset_cons_of_subset _ (subset_append_left _ _))
  | print span newline operand =>
    rw [Stmt.spots, Option.mem_toList.1 h]; exact subset_cons_self _ _
  | ret span operand =>
    rw [Stmt.spots, Option.mem_toList.1 h]; exact subset_cons_self _ _
  | var span name init =>
    rw [Stmt.spots, Option.mem_toList.1 h]; exact subset_cons_self _ _
  | loop span cond body =>
    obtain rfl := mem_singleton.1 h
    rw [Stmt.spots]
    exact subset_cons_of_subset _ (subset_append_left _ _)
  | expression span expr =>
    obtain rfl := mem_singleton.1 h
    rw [Stmt.spots]
    exact subset_cons_self _ _
  | _ => cases h

theorem Stmt.spots_subset_of_branch {stmt part : Stmt} (h : part ∈ stmt.branches)
    (around : List Origin) :
    part.spots around ⊆ stmt.spots around := by
  intro spot hspot
  cases stmt with
  | branch span cond onTrue onFalse =>
    rcases mem_cons.1 h with rfl | h
    · cases onFalse <;> simp [Stmt.spots, hspot]
    · rw [Option.mem_toList.1 h]
      simp [Stmt.spots, hspot]
  | loop span cond body =>
    obtain rfl := mem_singleton.1 h
    simp [Stmt.spots, hspot]
  | _ => cases h

namespace Layout

open Machine

variable {layout : Layout} {origins origins' : List Origin} {world : World}
  {depth : Nat} {env : ScopeId}

/-- Values that are neither called nor carry a class come from anywhere. -/
theorem hasValue_of_isComparable {log : History} {value : Value}
    (h : value.isComparable = true) :
    layout.HasValue log value := by
  cases value <;> trivial

section Changes

variable (hworld : layout.Keeps origins world) {span : Span}

private theorem Keeps.change {opened : List Origin} {next : World}
    (h : layout.Keeps (origins ++ opened) next)
    (hgrows : History.Grows ⟨world.heap, origins⟩ ⟨next.heap, origins ++ opened⟩) :
    layout.regime.Change depth origins world opened next :=
  ⟨h, later hgrows⟩

private theorem Keeps.stay {next : World} (h : layout.Keeps origins next)
    (hgrows : History.Grows ⟨world.heap, origins⟩ ⟨next.heap, origins⟩) :
    layout.regime.Change depth origins world [] next := by
  refine Keeps.change ?_ ?_ <;> rw [append_nil]
  · exact h
  · exact hgrows

include hworld

theorem change_call {function : Function}
    (hfunction : layout.HasValue ⟨world.heap, origins⟩ (.callable (.function function)))
    {args : List Value}
    (hargs : ∀ arg ∈ args, layout.HasValue ⟨world.heap, origins⟩ arg) :
    layout.regime.Change depth origins world [.call function.decl]
      (callFunction world [] function args).world ∧ ∀ stmt ∈ function.decl.body,
      layout.HasStmt ⟨(callFunction world [] function args).world.heap,
        origins ++ [.call function.decl]⟩ world.heap.scopes.size stmt := by
  obtain ⟨around, hfrom⟩ := hfunction
  let table := Table.putAll [] ((function.decl.params.map (·.node)).zip args)
  -- no parameter is called `this` or `super`
  have hplain : ∀ name, Reserved name → table.get? name = none := by
    intro name hname
    cases hbound : table.get? name with
    | none => rfl
    | some value =>
      rcases Table.get?_putAll hbound with hnil | hmem
      · cases hnil
      · exact absurd hname (hfrom.params name (of_mem_zip hmem).1)
  have hbindings :=
    Heap.bindings_makeScope_self world.heap (world.heap.chain function.closure) table
  have hscope : layout.ScopeSound
    ⟨(world.heap.makeChild function.closure table).2, origins ++ [.call function.decl]⟩
      world.heap.scopes.size (.call function.decl) :=
    ⟨(congrArg (Table.get? "this") hbindings).trans (hplain _ (.inl rfl)),
      (congrArg (Table.get? "super") hbindings).trans (hplain _ (.inr rfl))⟩
  refine ⟨(hworld.child function.closure _ (.zip _ hargs) hscope).change
    (.makeChild _ _ _ _ _), fun stmt hstmt => ?_⟩
  refine hasStmt_of_mem (hfrom.sees.makeChild hworld.size table (.call function.decl))
    (fun origin horigin => ?_) ?_ hstmt
  · cases horigin
    rfl
  · rw [FunctionDecl.listSpots_body]
    exact hfrom.spots

private theorem change_block {body : List Stmt}
    (hstmt : layout.HasStmt ⟨world.heap, origins⟩ env (.block span body)) :
    layout.regime.Change depth origins world [.block span body]
        ⟨(world.heap.makeChild env []).2, world.frames, world.output⟩ ∧
      ∀ stmt ∈ body, layout.HasStmt
        ⟨(world.heap.makeChild env []).2, origins ++ [.block span body]⟩
        world.heap.scopes.size stmt := by
  obtain ⟨around, hsees, -, hspots⟩ := hstmt
  rw [Stmt.spots] at hspots
  have hbindings := Heap.bindings_makeScope_self world.heap (world.heap.chain env) []
  have hkeeps := hworld.child env (.block span body) .nil
    ⟨(congrArg (Table.get? "this") hbindings).trans rfl,
      (congrArg (Table.get? "super") hbindings).trans rfl⟩
  refine ⟨hkeeps.change (.makeChild _ _ _ _ _), fun stmt hstmt => ?_⟩
  refine hasStmt_of_mem (hsees.makeChild hworld.size [] _) (fun origin horigin => ?_)
    (forall_mem_cons.1 hspots).2 hstmt
  cases horigin
  rfl

variable (hproper : layout.Proper)

include hproper

private theorem change_function {decl : FunctionDecl}
    (hstmt : layout.HasStmt ⟨world.heap, origins⟩ env (.funcDecl span decl)) :
    layout.regime.Change depth origins world []
      ⟨world.heap.draw.2.define env decl.name.node
        (.callable (.function (world.heap.makeFunction decl env false).1)),
        world.frames, world.output⟩ := by
  have hname : ¬Reserved decl.name.node := hstmt.names hproper mem_cons_self
  have hparams : ∀ name ∈ decl.params.map (·.node), ¬Reserved name := fun name hmem =>
    hstmt.names hproper (mem_cons_of_mem _ hmem)
  obtain ⟨around, hsees, hbodied, hspots⟩ := hstmt
  rw [Stmt.spots] at hspots
  have hgrows : History.Grows ⟨world.heap, origins⟩ ⟨world.heap.draw.2, origins⟩ :=
    .of_edits (.draw .none) origins
  have hfunction : layout.HasValue ⟨world.heap.draw.2, origins⟩
      (.callable (.function (world.heap.makeFunction decl env false).1)) :=
    ⟨around, hsees.mono hgrows, (forall_mem_cons.1 hspots).2, hparams,
      .inr ⟨rfl, hbodied⟩⟩
  exact (hworld.draw.define env hname hfunction).stay
    (hgrows.trans (.of_edits (.define .none hname _) origins))

/-- A method that a class finds is bound to an instance of it. -/
theorem change_bind {inst : Instance}
    (hinst : layout.HasValue ⟨world.heap, origins⟩ (.inst inst)) {name : String}
    {method : Function} (hmethod : inst.cls.findMethod? name = some method) :
    layout.regime.Change depth origins world [.receiver method.decl]
      (world.bind method (.inst inst)).2 ∧
      layout.HasValue
      ⟨(world.bind method (.inst inst)).2.heap, origins ++ [.receiver method.decl]⟩
        (world.bind method (.inst inst)).1 := by
  obtain ⟨cls, hcls, hheld⟩ := Class.exists_of_findMethod? hmethod
  obtain ⟨decl, around, closure, hfrom⟩ := hinst.1 cls hcls
  obtain ⟨hbound, hgrows, hfunction⟩ :=
    hworld.bind hproper hfrom hheld hinst fun _ => hcls
  exact ⟨hbound.change hgrows, hfunction⟩

omit hworld hproper in
/-- The class of a declaration is made in a heap that is ready for it, and bound to its
name. -/
private theorem keeps_bindClass (world : World) (hname : ¬Reserved decl.name.node)
    {heap : Heap} (hready : layout.Keeps origins' ⟨heap, world.frames, world.output⟩)
    (hgrows : History.Grows ⟨world.heap, origins⟩ ⟨heap, origins'⟩)
    {superclass : Option Class} (around : List Origin) {closure : ScopeId}
    (hfrom : layout.ClassFrom ⟨heap, origins'⟩ (heap.makeClass decl.name.node superclass
      decl.methods closure).1 decl around closure)
    (hsuper : ∀ cls ∈ superclass, layout.HasClass ⟨world.heap, origins⟩ cls) :
    let made := heap.makeClass decl.name.node superclass decl.methods closure
    layout.Keeps origins' ⟨made.2.define env decl.name.node (.cls made.1),
        world.frames.add decl.name.node (.cls made.1), world.output⟩ ∧
      History.Grows ⟨world.heap, origins⟩
        ⟨made.2.define env decl.name.node (.cls made.1), origins'⟩ := by
  intro made
  have hmade : History.Grows ⟨heap, origins'⟩ ⟨made.2, origins'⟩ :=
    .of_edits (.makeClass .none decl.name.node superclass decl.methods closure) origins'
  have hcls : layout.HasValue ⟨made.2, origins'⟩ (.cls made.1) := by
    intro ancestor hancestor
    rcases Class.mem_lineage hancestor with rfl | ⟨parent, hparent, hancestor⟩
    · exact ⟨decl, around, closure, hfrom.mono hmade⟩
    · exact ((hsuper parent hparent).mono (hgrows.trans hmade)) ancestor hancestor
  have hkeeps := hready.makeClass decl.name.node superclass decl.methods closure
  have hadded := hkeeps.withFrames world.output (hkeeps.values.add decl.name.node hcls)
  exact ⟨hadded.define env hname hcls,
    (hgrows.trans hmade).trans (.of_edits (.define .none hname _) origins')⟩

private theorem change_declareClass
    (hstmt : layout.HasStmt ⟨world.heap, origins⟩ env (.classDecl span decl))
    (superclass : Option Class) (hsome : superclass.isSome = decl.superclass.isSome)
    (hsuper : ∀ cls ∈ superclass, layout.HasClass ⟨world.heap, origins⟩ cls)
    (hdeclared : ∀ cls ∈ superclass, layout.declared decl cls world.heap.scopes.size) :
    layout.regime.Change depth origins world
      (superclass.toList.map fun _ => .superclass decl)
      (declareClass world [] env decl superclass).world := by
  have hname : ¬Reserved decl.name.node := hstmt.names hproper mem_cons_self
  have hnothing : layout.HasValue ⟨world.heap, origins⟩ .nothing := trivial
  have hcleared := hworld.define env hname hnothing
  have hgrows : History.Grows ⟨world.heap, origins⟩
      ⟨world.heap.define env decl.name.node .nothing, origins⟩ :=
    .of_edits (.define .none hname .nothing) origins
  obtain ⟨around, hsees, hbodied, hspots⟩ := hstmt
  rw [Stmt.spots, ClassDecl.spots_eq] at hspots
  obtain ⟨hself, hspots⟩ := forall_mem_cons.1 hspots
  have hmethods := (forall_mem_append.1 hspots).2
  cases superclass with
  | none =>
    have hinside : decl.inside around = around := by
      rw [ClassDecl.inside,
        Option.isNone_iff_eq_none.1 (Option.isSome_eq_false_iff.1 hsome.symm)]
    have hfrom :=
      classFrom_makeClass (world.heap.define env decl.name.node .nothing) ⟨span, hself⟩
      hmethods hbodied hsome (hinside.symm ▸ hsees.mono hgrows) nofun
    obtain ⟨hkeeps, hgrows⟩ :=
      keeps_bindClass world hname hcleared hgrows around hfrom hsuper
    exact hkeeps.stay hgrows
  | some superclass =>
    have hinside : decl.inside around = .superclass decl :: around := by
      obtain ⟨expr, hexpr⟩ := Option.isSome_iff_exists.1 hsome.symm
      rw [ClassDecl.inside, hexpr]
    have hsize : (world.heap.define env decl.name.node .nothing).scopes.size =
        world.heap.scopes.size := by
      simp [Heap.define]
    have htable : Table.Holds
      (layout.HasValue ⟨world.heap.define env decl.name.node .nothing, origins⟩)
        [("super", .cls superclass)] :=
      forall_mem_singleton.2 ((hsuper superclass rfl).mono hgrows)
    have hbindings :=
      Heap.bindings_makeScope_self (world.heap.define env decl.name.node .nothing)
      ((world.heap.define env decl.name.node .nothing).chain env)
      [("super", Value.cls superclass)]
    -- this is the scope that the declaration is remembered by
    have hbound := (congrArg (Table.get? "super") hbindings).trans rfl
    have hready := hcleared.child env (.superclass decl) htable
      ⟨superclass, hbound, (congrArg (Table.get? "this") hbindings).trans rfl,
        hsize ▸ hdeclared superclass rfl⟩
    have hopened :=
      History.Grows.makeChild (world.heap.define env decl.name.node .nothing)
      origins env [("super", .cls superclass)] (.superclass decl)
    have hinner :=
      (hsees.mono hgrows).makeChild hcleared.size [("super", .cls superclass)]
      (.superclass decl)
    rw [← hinside] at hinner
    have hfrom := classFrom_makeClass
      ((world.heap.define env decl.name.node .nothing).makeChild env
        [("super", .cls superclass)]).2 ⟨span, hself⟩
      hmethods hbodied hsome hinner fun cls hcls => by
        cases hcls
        exact hbound
    obtain ⟨hkeeps, hgrows⟩ :=
      keeps_bindClass world hname hready (hgrows.trans hopened) around hfrom hsuper
    exact hkeeps.change hgrows

end Changes

/-- The operations of the machine take what they work with from the code. -/
theorem Proper.upheld (hproper : layout.Proper) (ctx : Context) :
    layout.regime.Upheld ctx where
  part hexpr hpart := HasExpr.part hexpr hpart
  span hexpr := HasExpr.place hexpr
  sight _ := trivial
  target hexpr := HasExpr.names hexpr hproper mem_cons_self
  marked _ _ := trivial
  operand hstmt hexpr := HasStmt.evaluates hstmt (Stmt.spots_subset_of_operand hexpr)
  branch hstmt hpart := HasStmt.executes hstmt (Stmt.spots_subset_of_branch hpart)
  name {log env stmt name} hstmt hname := by
    refine HasStmt.names hstmt hproper ?_
    cases stmt with
    | funcDecl span decl => exact mem_cons.2 (.inl (mem_singleton.1 hname))
    | classDecl span decl => exact mem_cons.2 (.inl (mem_singleton.1 hname))
    | var span name init => exact hname
    | _ => cases hname
  heir hsuper := Option.isSome_iff_exists.2 ⟨_, hsuper⟩
  plain := hasValue_of_isComparable
  wrapped hcls := hcls
  native _ := trivial
  fault _ := trivial
  raised _ := trivial
  failure _ := trivial
  read hworld _ hread := hworld.values.read hread
  main hworld hmain := hworld.values.readGlobal hmain
  this hworld _ hthis := hworld.values.heap.lookup? hthis
  receiver hworld _ hthis := hworld.values.heap.getAt hthis
  field hworld _ hfield := (hworld.values.heap.fieldsOf _).get? hfield
  push name hworld := hworld.withFrames _ (hworld.values.push name)
  pop _ hworld := hworld.withFrames _ hworld.values.pop
  print output hworld := hworld.withFrames output hworld.values
  arguments hworld hargs := hworld.withFrames _ (hworld.values.addNamed hargs)
  draw hworld := hworld.draw.stay (.of_edits (.draw .none) _)
  declare hworld hname hvalue :=
    ((hworld.withFrames _ (hworld.values.add _ hvalue)).define _ hname hvalue).stay
      (.of_edits (.define .none hname _) _)
  assign hworld _ hname _ hvalue :=
    (hworld.assign _ hname hvalue).1.stay (hworld.assign _ hname hvalue).2
  setField name hworld _ hvalue :=
    (hworld.setField _ name hvalue).stay (.of_edits (.setField .none _ name _) _)
  block hworld hstmt := change_block hworld hstmt
  function hworld hstmt := change_function hworld hproper hstmt
  declareClass {depth origins world env span decl superclass} hworld hstmt hroot hsuper
    hmade := by
    refine change_declareClass hworld hproper hstmt superclass
      ?_ (fun cls hcls => (hsuper cls hcls).2) hmade
    cases superclass with
    | none => rw [hroot rfl]; rfl
    | some superclass => exact (hsuper superclass rfl).1.symm
  call hworld hfunction hargs := change_call hworld hfunction hargs
  construct {depth origins world} cls hworld hcls := by
    have hgrows : History.Grows ⟨world.heap, origins⟩
        ⟨(world.heap.makeInstance cls).2, origins⟩ :=
      .of_edits (.makeInstance .none cls) origins
    refine ⟨(hworld.makeInstance cls).stay hgrows, ?_⟩
    rw [append_nil]
    exact ⟨HasClass.mono hgrows hcls, by simp [Heap.makeInstance]⟩
  bind hworld hinst hmethod := change_bind hworld hproper hinst hmethod
  super hworld hexpr hmethod := by
    obtain ⟨hbound, hgrows, hfunction⟩ := hworld.bindSuper hproper hexpr hmethod
    exact ⟨hbound.change hgrows, hfunction⟩

/-- A transition keeps the state laid out. Where a class gets its superclass, this has
to be a declaration that the layout knows of. -/
theorem Governs.step (hproper : layout.Proper) {ctx : Context} {m : Machine}
    (h : layout.Governs origins m)
    (hdeclared : ∀ span decl env rest superclass, m.control = .value (.cls superclass) →
      m.pending = .superclass span decl env :: rest →
      layout.declared decl superclass m.world.heap.scopes.size) :
    layout.Governs (origins ++ m.opened ctx) (m.step ctx) := by
  refine Regime.Governs.step (hproper.upheld ctx) h (fun _ => id) ?_
  intro env decl superclass hdeclares cls hcls
  cases hdeclares with
  | root => cases hcls
  | derived => exact Option.some.inj hcls ▸ hdeclared _ decl env _ _ rfl rfl

end Layout

end Treewalk
