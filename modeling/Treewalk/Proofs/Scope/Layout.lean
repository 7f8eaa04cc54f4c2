import Mathlib.Data.List.Basic
import Treewalk.Proofs.Heap.Edit
import Treewalk.Proofs.Machine.Regime
import Treewalk.Proofs.Scope.Ground
import Treewalk.Proofs.Scope.Spots

/-!
# Where the code and the values of a run come from

A `Layout` says which spots the code of a run is taken from. The code that a state
evaluates or keeps stands at one of them, in an environment whose scopes were opened by
what is around the spot (`Around`). A function was made of a declaration in such an
environment, and a class of a class declaration: of several methods of one name it has
the last, all of them see one scope, and this scope binds `super` to the superclass if
there is one (`Layout.ClassFrom`). The scope of a receiver binds `this` to an instance,
that of a superclass binds `super` to a class, and no other scope binds either name
(`Layout.ScopeSound`).

If every `super` of the code stands in a class that has a superclass
(`Layout.sheltered`), then the receiver of a method is also known to have the class that
holds the method among those it inherits from.

The operations on worlds are in `Treewalk.Proofs.Scope.LayoutWorld`, the transitions in
`Treewalk.Proofs.Scope.LayoutStep`.
-/

namespace Treewalk

open List

variable {scope : ScopeId} {name : String} {around : List Origin} {cls : Class}
  {env : ScopeId}

/-! ## Environments -/

/-- The scopes that an environment sees were opened by these, around them the
globals. -/
def Around (log : History) (env : ScopeId) (around : List Origin) : Prop :=
  (log.heap.chain env).map (log.origins[·]?) = (around ++ [Origin.globals]).map some

/-- The nearest scope is that of a body, or there is none but the global one. -/
def Bodied (around : List Origin) : Prop :=
  ∀ origin ∈ around.head?, origin.isBody = true

/-- How an environment in a method sees the receiver of the method and the superclass of
its class: through blocks and functions up to the call of the method, and then the
scopes of the receiver and of the superclass. -/
structure MethodView (log : History) (env : ScopeId) (method : FunctionDecl)
    (decl : ClassDecl) (receiver closure : ScopeId) (inst : Instance)
    (superclass : Class) : Prop where
  chain : ∃ near body far, log.heap.chain env = near ++ body :: receiver ::
    closure :: far ∧ (∀ scope ∈ near, ∃ origin, log.origins[scope]? = some origin ∧
      origin.isBody = true) ∧
    log.origins[body]? = some (.call method)
  receives : log.origins[receiver]? = some (.receiver method)
  declares : log.origins[closure]? = some (.superclass decl)
  this : (log.heap.bindings receiver).get? "this" = some (.inst inst)
  super : (log.heap.bindings closure).get? "super" = some (.cls superclass)

/-- The heap is edited without touching what `this` and `super` mean, and the origins go
on. -/
structure History.Grows (old new : History) : Prop where
  edits : old.heap.Edits (fun _ name => ¬Reserved name) new.heap
  origins : old.origins <+: new.origins

/-! ## Classes -/

/-- A class and those that it inherits from, the nearest first. -/
def Class.lineage : Class → List Class
  | .mk stamp name none methods => [.mk stamp name none methods]
  | .mk stamp name (some superclass) methods =>
    .mk stamp name (some superclass) methods :: superclass.lineage

/-- The method of that name: the last one declared. -/
def ClassDecl.method? (decl : ClassDecl) (name : String) : Option FunctionDecl :=
  decl.methods.reverse.find? (·.name.node == name)

/-! ## Layers -/

/-- Scopes are nested, and none is seen twice from one place. -/
structure Heap.Layered (heap : Heap) : Prop where
  nested : heap.Nested
  nodup : ∀ env, (heap.chain env).Nodup

/-! ## Layouts -/

/-- What a run takes its code from. -/
structure Layout where
  /-- The spots of the code. -/
  spot : Spot → Prop
  /-- Whether it is known that every `super` stands in a class that has a superclass. -/
  sheltered : Prop
  /-- A class was declared while its superclass expression had this value, and its
  methods see this scope. -/
  declared : ClassDecl → Class → ScopeId → Prop

namespace Layout

/-- The code declares and assigns no reserved name, and every `super` stands where it is
said to stand. -/
structure Proper (layout : Layout) : Prop where
  names : ∀ spot, layout.spot spot → ∀ name ∈ spot.piece.names, ¬Reserved name
  paired : ∀ spot, layout.spot spot → Origin.Paired spot.around
  supers : layout.sheltered → ∀ span method around,
    layout.spot ⟨.expr (.super span method), around⟩ →
    (Origin.subclassMethod? around).isSome = true

variable (layout : Layout) (log : History)

/-- The place of an expression of the code. -/
def Place (span : Span) : Prop :=
  ∃ expr around, layout.spot ⟨.expr expr, around⟩ ∧ expr.span = span

/-- The expression stands in the code, where the environment fits. -/
def HasExpr (env : ScopeId) (expr : Expr) : Prop :=
  ∃ around, Around log env around ∧ ∀ spot ∈ expr.spots around, layout.spot spot

/-- The statement stands in the code, where the environment fits. -/
def HasStmt (env : ScopeId) (stmt : Stmt) : Prop :=
  ∃ around, Around log env around ∧ Bodied around ∧ ∀ spot ∈ stmt.spots around,
    layout.spot spot

/-! ### Values -/

/-- The function was made of its declaration around here; an initializer has a
receiver. -/
structure FunctionFrom (function : Function) (around : List Origin) : Prop where
  sees : Around log function.closure around
  spots : ∀ spot ∈ function.decl.spots around, layout.spot spot
  params : ∀ name ∈ function.decl.params.map (·.node), ¬Reserved name
  bound : around.head? = some (.receiver function.decl) ∨ function.isInit = false ∧
    Bodied around

/-- The class was made of this declaration, and its methods see this scope. -/
structure ClassFrom (cls : Class) (decl : ClassDecl) (around : List Origin)
    (closure : ScopeId) : Prop where
  name : cls.name = decl.name.node
  spot : ∃ span, layout.spot ⟨.stmt (.classDecl span decl), around⟩
  spots : ∀ spot ∈ FunctionDecl.methodSpots (decl.inside around) decl.methods,
    layout.spot spot
  bodied : Bodied around
  superclass : cls.superclass?.isSome = decl.superclass.isSome
  methods : ∀ name, (cls.methods.get? name).map Function.decl = decl.method? name
  initializer : ∀ name method, cls.methods.get? name = some method →
    method.isInit = (name == Class.initializer)
  closures : ∀ name method, cls.methods.get? name = some method →
    method.closure = closure
  sees : Around log closure (decl.inside around)
  super : ∀ superclass, cls.superclass? = some superclass →
    (log.heap.bindings closure).get? "super" = some (.cls superclass)

/-- The class, and all that it inherits from, were made of declarations of the code. -/
def HasClass (cls : Class) : Prop :=
  ∀ ancestor ∈ cls.lineage, ∃ decl around closure, layout.ClassFrom log ancestor decl
    around closure

/-- What the value carries comes from the code. -/
def HasValue : Value → Prop
  | .callable (.function function) => ∃ around, layout.FunctionFrom log function around
  | .callable (.cls cls) => layout.HasClass log cls
  | .cls cls => layout.HasClass log cls
  | .inst inst => layout.HasClass log inst.cls ∧ inst.address < log.heap.fields.size
  | _ => True

/-- One of the classes holds the method, and the scope is right inside the one that this
method sees. -/
def Holder (classes : List Class) (decl : FunctionDecl) (scope : ScopeId) : Prop :=
  ∃ cls ∈ classes, ∃ name method, cls.methods.get? name = some method ∧
    method.decl = decl ∧ ∃ outer,
    log.heap.chain scope = scope :: method.closure :: outer

/-- What a scope binds `this` and `super` to, by what it was opened for. -/
def ScopeSound (scope : ScopeId) : Origin → Prop
  | .receiver decl =>
    ∃ inst, (log.heap.bindings scope).get? "this" = some (.inst inst) ∧
      (log.heap.bindings scope).get? "super" = none ∧
      (layout.sheltered → Holder log inst.cls.lineage decl scope)
  | .superclass decl =>
    ∃ cls, (log.heap.bindings scope).get? "super" = some (.cls cls) ∧
      (log.heap.bindings scope).get? "this" = none ∧ layout.declared decl cls scope
  | _ =>
    (log.heap.bindings scope).get? "this" = none ∧
      (log.heap.bindings scope).get? "super" = none

/-- The scopes and all values of a world come from the code. -/
structure Keeps (origins : List Origin) (world : World) : Prop where
  layered : world.heap.Layered
  size : origins.length = world.heap.scopes.size
  root : Around ⟨world.heap, origins⟩ globalScope []
  scopes : ∀ (scope : ScopeId) origin, origins[scope]? = some origin →
    layout.ScopeSound ⟨world.heap, origins⟩ scope origin
  values : world.Holds (layout.HasValue ⟨world.heap, origins⟩)

/-! ### States -/

/-- What is asked of states: all that they hold comes from the code, and so do the
places that they may report. -/
def regime : Regime where
  base := []
  world _ origins world := layout.Keeps origins world
  expr log env expr := layout.HasExpr log env expr
  stmt log env stmt := layout.HasStmt log env stmt
  value log value := layout.HasValue log value
  scope _ := True
  declares _ name := ¬Reserved name
  assigns _ name := ¬Reserved name
  capability _ := True
  cause _ := True
  place := layout.Place
  heir decl := decl.superclass.isSome = true
  made world _ decl superclass :=
    ∀ cls ∈ superclass, layout.declared decl cls world.heap.scopes.size

/-- All that a state holds comes from the code. -/
abbrev Governs (origins : List Origin) (m : Machine) : Prop :=
  layout.regime.Governs origins m

end Layout

/-! ## Growth -/

namespace Heap.Edits

variable {Writes : ScopeId → String → Prop} {old heap : Heap}

theorem mono {Writes' : ScopeId → String → Prop} (h : old.Edits Writes heap)
    (hwrites : ∀ env name, Writes env name → Writes' env name) :
    old.Edits Writes' heap := by
  induction h with
  | none => exact .none
  | draw _ ih => exact ih.draw
  | makeChild _ env table ih => exact ih.makeChild env table
  | makeInstance _ cls ih => exact ih.makeInstance cls
  | define _ writes value ih => exact ih.define (hwrites _ _ writes) value
  | setField _ inst name value ih => exact ih.setField inst name value

theorem fields_size_le (h : old.Edits Writes heap) :
    old.fields.size ≤ heap.fields.size := by
  induction h with
  | none => exact Nat.le_refl _
  | draw _ ih => exact ih
  | makeChild _ _ _ ih => exact ih
  | makeInstance _ _ ih => exact Nat.le_trans ih (by simp [Heap.makeInstance])
  | define _ _ _ ih => exact ih
  | setField _ _ _ _ ih => exact Nat.le_trans ih (by simp [Heap.setField])

end Heap.Edits

namespace Heap.Layered

variable {old heap : Heap}

/-- What a scope sees behind itself is what an environment sees behind the scope. -/
theorem eq_of_chain (h : heap.Layered) {near far outer : List ScopeId}
    (hchain : heap.chain env = near ++ scope :: far)
    (hscope : heap.chain scope = scope :: outer) : outer = far := by
  have hmem : scope ∈ heap.chain env := by
    rw [hchain]
    exact mem_append_right _ mem_cons_self
  obtain ⟨front, hfront⟩ := h.nested.suffix env scope hmem
  rw [hscope, hchain] at hfront
  have hnodup := h.nodup env
  rw [hchain] at hnodup
  obtain ⟨-, hrest, hapart⟩ := nodup_append.1 hnodup
  have hnear : scope ∉ near := fun hnear => hapart scope hnear scope mem_cons_self rfl
  exact ((append_cons_inj_of_notMem hnear (nodup_cons.1 hrest).1).1
    hfront.symm).2.2.symm

theorem makeChild (h : heap.Layered) (env : ScopeId) (table : Table Value) :
    (heap.makeChild env table).2.Layered := by
  refine ⟨h.nested.makeChild env table, fun other => ?_⟩
  by_cases hnew : (heap.makeChild env table).2.chain other = []
  · rw [hnew]
    exact nodup_nil
  have hlt : other < heap.scopes.size + 1 := by
    simpa [Heap.makeChild, Heap.makeScope] using lt_size_of_chain hnew
  rcases Nat.lt_succ_iff_lt_or_eq.1 hlt with hold | rfl
  · rw [show (heap.makeChild env table).2.chain other =
      heap.chain other from chain_makeScope_of_lt hold _ table]
    exact h.nodup other
  · rw [show (heap.makeChild env table).2.chain heap.scopes.size = heap.scopes.size ::
      heap.chain env from heap.chain_makeScope_self _ table]
    exact nodup_cons.2 ⟨fun hmem => Nat.lt_irrefl _ (h.nested.lt_size hmem),
      h.nodup env⟩

/-- Edits keep the scopes layered. -/
theorem edits {Writes : ScopeId → String → Prop} (hold : old.Layered)
    (h : old.Edits Writes heap) : heap.Layered := by
  induction h with
  | none => exact hold
  | makeChild _ env table ih => exact ih.makeChild env table
  | draw _ ih => exact ⟨ih.nested.of_scopes_eq rfl, ih.nodup⟩
  | makeInstance _ _ ih => exact ⟨ih.nested.of_scopes_eq rfl, ih.nodup⟩
  | setField _ _ _ _ ih => exact ⟨ih.nested.of_scopes_eq rfl, ih.nodup⟩
  | define _ _ value ih =>
    refine ⟨ih.nested.define _ _ value, fun env => ?_⟩
    rw [chain_define]
    exact ih.nodup env

end Heap.Layered

namespace History.Grows

variable {old log new : History}

theorem refl (log : History) : log.Grows log :=
  ⟨.none, prefix_refl _⟩

theorem trans (h : old.Grows log) (h' : log.Grows new) : old.Grows new :=
  ⟨h.edits.trans h'.edits, h.origins.trans h'.origins⟩

private theorem chain (h : old.Grows new) (henv : old.heap.chain env ≠ []) :
    new.heap.chain env = old.heap.chain env :=
  h.edits.chain (Heap.lt_size_of_chain henv)

theorem origin (h : old.Grows new) {scope : ScopeId} {origin : Origin}
    (horigin : old.origins[scope]? = some origin) :
    new.origins[scope]? = some origin := by
  obtain ⟨more, hmore⟩ := h.origins
  rw [← hmore, List.getElem?_append_left (List.getElem?_eq_some_iff.1 horigin).1]
  exact horigin

/-- What `this` and `super` are bound to stays. -/
theorem word (h : old.Grows new) (hscope : scope < old.heap.scopes.size)
    (hname : Reserved name) :
    (new.heap.bindings scope).get? name = (old.heap.bindings scope).get? name :=
  h.edits.get?_bindings hscope (not_not_intro hname)

/-- Where no scope is made the origins stay. -/
theorem of_edits {heap heap' : Heap}
    (h : heap.Edits (fun _ name => ¬Reserved name) heap') (origins : List Origin) :
    History.Grows ⟨heap, origins⟩ ⟨heap', origins⟩ :=
  ⟨h, prefix_refl _⟩

/-- A new scope has an origin of its own. -/
theorem makeChild (heap : Heap) (origins : List Origin) (env : ScopeId)
    (table : Table Value) (origin : Origin) :
    History.Grows ⟨heap, origins⟩ ⟨(heap.makeChild env table).2, origins ++ [origin]⟩ :=
  ⟨.makeChild .none env table, prefix_append _ _⟩

end History.Grows

namespace Around

variable {log log' : History} {env : ScopeId} {around : List Origin}

variable (h : Around log env around)

include h

theorem chain_ne_nil : log.heap.chain env ≠ [] := by
  intro hnil
  rw [Around, hnil] at h
  simp at h

private theorem lt_size : env < log.heap.scopes.size :=
  Heap.lt_size_of_chain h.chain_ne_nil

/-- What an environment was opened by is the nearest around it. -/
theorem origin_eq : log.origins[env]? = some (around.headD .globals) := by
  obtain ⟨outer, houter⟩ := Heap.chain_eq_cons h.chain_ne_nil
  rw [Around, houter, map_cons] at h
  cases around with
  | nil => exact (List.cons.inj h).1
  | cons origin around => exact (List.cons.inj h).1

theorem mono (hgrows : log.Grows log') : Around log' env around := by
  rw [Around, hgrows.chain h.chain_ne_nil, ← h]
  refine map_congr_left fun scope hscope => ?_
  have hmem : log.origins[scope]? ∈ (around ++ [Origin.globals]).map some := by
    rw [← h]
    exact mem_map_of_mem hscope
  obtain ⟨origin, -, horigin⟩ := mem_map.1 hmem
  rw [← horigin]
  exact hgrows.origin horigin.symm

omit h in
/-- A new scope is inside what is around the environment that it is made in. -/
theorem makeChild {heap : Heap} {origins : List Origin}
    (h : Around ⟨heap, origins⟩ env around) (hsize : origins.length = heap.scopes.size)
    (table : Table Value) (origin : Origin) :
    Around ⟨(heap.makeChild env table).2, origins ++ [origin]⟩ heap.scopes.size
      (origin :: around) := by
  have hchain := heap.chain_makeScope_self (heap.chain env) table
  have hkept := h.mono (.makeChild heap origins env table origin)
  have hinner : (heap.makeChild env table).2.chain env = heap.chain env :=
    (History.Grows.makeChild heap origins env table origin).chain h.chain_ne_nil
  rw [Around, hinner] at hkept
  rw [Around]
  show List.map _ ((heap.makeScope (heap.chain env) table).2.chain heap.scopes.size) = _
  rw [hchain, map_cons, cons_append, map_cons, hkept]
  congr 1
  rw [← hsize]
  simp

/-- The scope that was opened by an origin around the environment. -/
theorem split {inner outer : List Origin} {origin : Origin}
    (haround : around = inner ++ origin :: outer) :
    ∃ near scope far, log.heap.chain env = near ++ scope :: far ∧
      log.origins[scope]? = some origin ∧ near.map (log.origins[·]?) = inner.map some ∧
      far.map (log.origins[·]?) = (outer ++ [Origin.globals]).map some := by
  rw [Around, haround, append_assoc, map_append, cons_append, map_cons] at h
  obtain ⟨near, rest, hchain, hnear, hrest⟩ := map_eq_append_iff.1 h
  obtain ⟨scope, far, rfl, hscope, hfar⟩ := map_eq_cons_iff.1 hrest
  exact ⟨near, scope, far, hchain, hscope, hnear, hfar⟩

end Around

namespace Layout

variable {layout : Layout} {log log' : History}

/-! ## What growth keeps -/

section Mono

variable (hgrows : log.Grows log')

include hgrows

private theorem HasExpr.mono {expr : Expr} (h : layout.HasExpr log env expr) :
    layout.HasExpr log' env expr :=
  h.imp fun _ hexpr => ⟨hexpr.1.mono hgrows, hexpr.2⟩

theorem HasStmt.mono {stmt : Stmt} (h : layout.HasStmt log env stmt) :
    layout.HasStmt log' env stmt :=
  h.imp fun _ hstmt => ⟨hstmt.1.mono hgrows, hstmt.2⟩

private theorem FunctionFrom.mono {function : Function}
    (h : layout.FunctionFrom log function around) :
    layout.FunctionFrom log' function around :=
  ⟨h.sees.mono hgrows, h.spots, h.params, h.bound⟩

theorem ClassFrom.mono {cls : Class} {decl : ClassDecl} {closure : ScopeId}
    (h : layout.ClassFrom log cls decl around closure) :
    layout.ClassFrom log' cls decl around closure where
  name := h.name
  spot := h.spot
  spots := h.spots
  bodied := h.bodied
  superclass := h.superclass
  methods := h.methods
  initializer := h.initializer
  closures := h.closures
  sees := h.sees.mono hgrows
  super superclass hsuper := by
    rw [hgrows.word h.sees.lt_size (.inr rfl)]
    exact h.super superclass hsuper

theorem HasClass.mono {cls : Class} (h : layout.HasClass log cls) :
    layout.HasClass log' cls := by
  intro ancestor hancestor
  obtain ⟨decl, around, closure, hfrom⟩ := h ancestor hancestor
  exact ⟨decl, around, closure, hfrom.mono hgrows⟩

theorem HasValue.mono {value : Value} (h : layout.HasValue log value) :
    layout.HasValue log' value := by
  cases value with
  | callable callable =>
    cases callable with
    | function function =>
      exact Exists.imp (fun _ hfrom => FunctionFrom.mono hgrows hfrom) h
    | cls cls => exact HasClass.mono hgrows h
    | native native => trivial
  | cls cls => exact HasClass.mono hgrows h
  | inst inst =>
    exact ⟨HasClass.mono hgrows h.1, Nat.lt_of_lt_of_le h.2 hgrows.edits.fields_size_le⟩
  | _ => trivial

theorem Holder.mono {classes : List Class} {decl : FunctionDecl}
    (h : Holder log classes decl scope) :
    Holder log' classes decl scope := by
  obtain ⟨cls, hcls, name, method, hmethod, hdecl, outer, hchain⟩ := h
  refine ⟨cls, hcls, name, method, hmethod, hdecl, outer, ?_⟩
  rw [hgrows.chain (by rw [hchain]; exact cons_ne_nil _ _), hchain]

theorem ScopeSound.mono {scope : ScopeId} (hscope : scope < log.heap.scopes.size)
    {origin : Origin} (h : layout.ScopeSound log scope origin) :
    layout.ScopeSound log' scope origin := by
  have hthis := hgrows.word hscope (.inl rfl)
  have hsuper := hgrows.word hscope (.inr rfl)
  cases origin with
  | receiver decl =>
    obtain ⟨inst, hinst, hnone, hholder⟩ := h
    exact ⟨inst, hthis.trans hinst, hsuper.trans hnone, fun hsheltered =>
      (hholder hsheltered).mono hgrows⟩
  | superclass decl =>
    obtain ⟨cls, hcls, hnone, hdeclared⟩ := h
    exact ⟨cls, hsuper.trans hcls, hthis.trans hnone, hdeclared⟩
  | _ => exact ⟨hthis.trans h.1, hsuper.trans h.2⟩

omit hgrows in
/-- The scope of a body binds neither `this` nor `super`. -/
theorem ScopeSound.get?_eq_none {origin : Origin}
    (h : layout.ScopeSound log scope origin) (hbody : origin.isBody = true)
    (hname : Reserved name) : (log.heap.bindings scope).get? name = none := by
  rcases hname with rfl | rfl <;> cases origin
  all_goals first
    | exact h.1
    | exact h.2
    | cases hbody

theorem later : layout.regime.Later log log' :=
  ⟨HasValue.mono hgrows, HasExpr.mono hgrows, HasStmt.mono hgrows⟩

end Mono

/-! ## Code -/

section Code

variable {env : ScopeId} {expr : Expr} {stmt : Stmt}

/-- A part of an expression stands where the expression stands. -/
theorem HasExpr.part (h : layout.HasExpr log env expr) {part : Expr}
    (hpart : part ∈ expr.parts) :
    layout.HasExpr log env part := by
  obtain ⟨around, hsees, hspots⟩ := h
  exact ⟨around, hsees, fun spot hspot => hspots spot (Expr.spots_subset hpart hspot)⟩

theorem HasExpr.place (h : layout.HasExpr log env expr) : layout.Place expr.span := by
  obtain ⟨around, -, hspots⟩ := h
  exact ⟨expr, around, hspots _ (expr.mem_spots_self around), rfl⟩

/-- The names that an expression assigns itself are not reserved. -/
theorem HasExpr.names (h : layout.HasExpr log env expr) (hproper : layout.Proper)
    {name : String} (hname : name ∈ (Piece.expr expr).names) : ¬Reserved name := by
  obtain ⟨around, -, hspots⟩ := h
  exact hproper.names _ (hspots _ (expr.mem_spots_self around)) name hname

/-- The names that a statement declares itself are not reserved. -/
theorem HasStmt.names (h : layout.HasStmt log env stmt) (hproper : layout.Proper)
    {name : String} (hname : name ∈ (Piece.stmt stmt).names) : ¬Reserved name := by
  obtain ⟨around, -, -, hspots⟩ := h
  exact hproper.names _ (hspots _ (stmt.mem_spots_self around)) name hname

/-- An expression that a statement evaluates stands where the statement stands. -/
theorem HasStmt.evaluates (h : layout.HasStmt log env stmt)
    (hsub : ∀ around, expr.spots around ⊆ stmt.spots around) :
    layout.HasExpr log env expr := by
  obtain ⟨around, hsees, -, hspots⟩ := h
  exact ⟨around, hsees, fun spot hspot => hspots spot (hsub around hspot)⟩

/-- A statement that a statement executes in its own environment stands where the
statement stands. -/
theorem HasStmt.executes (h : layout.HasStmt log env stmt) {part : Stmt}
    (hsub : ∀ around, part.spots around ⊆ stmt.spots around) :
    layout.HasStmt log env part := by
  obtain ⟨around, hsees, hbodied, hspots⟩ := h
  exact ⟨around, hsees, hbodied, fun spot hspot => hspots spot (hsub around hspot)⟩

theorem hasStmt_of_mem {body : List Stmt} (hsees : Around log env around)
    (hbodied : Bodied around)
    (hspots : ∀ spot ∈ Stmt.listSpots around body, layout.spot spot)
    (hstmt : stmt ∈ body) :
    layout.HasStmt log env stmt :=
  ⟨around, hsees, hbodied, fun spot hspot =>
    hspots spot (Stmt.spots_subset hstmt hspot)⟩

end Code

/-! ## Classes -/

end Layout

namespace Class

theorem self_mem_lineage (cls : Class) : cls ∈ cls.lineage := by
  obtain ⟨stamp, name, superclass, methods⟩ := cls
  cases superclass <;> exact mem_cons_self

theorem mem_lineage {ancestor : Class} (h : ancestor ∈ cls.lineage) :
    ancestor = cls ∨ ∃ superclass, cls.superclass? = some superclass ∧
      ancestor ∈ superclass.lineage := by
  obtain ⟨stamp, name, superclass, methods⟩ := cls
  cases superclass with
  | none => exact .inl (mem_singleton.1 h)
  | some superclass => exact (mem_cons.1 h).imp id fun hmem => ⟨superclass, rfl, hmem⟩

/-- What a superclass inherits from, the class inherits from. -/
theorem lineage_subset {superclass : Class} (h : cls.superclass? = some superclass) :
    superclass.lineage ⊆ cls.lineage := by
  obtain ⟨stamp, name, found, methods⟩ := cls
  obtain rfl : found = some superclass := h
  exact subset_cons_self _ _

/-- What an ancestor inherits from, the class inherits from. -/
theorem lineage_subset_of_mem {ancestor : Class} :
    ∀ {cls : Class}, ancestor ∈ cls.lineage →
    ancestor.lineage ⊆ cls.lineage
  | .mk _ _ none _, h => by
    obtain rfl := mem_singleton.1 h
    exact List.Subset.refl _
  | .mk _ _ (some superclass) _, h => by
    rcases mem_cons.1 h with rfl | h
    · exact List.Subset.refl _
    · exact subset_cons_of_subset _ (lineage_subset_of_mem h)

/-- A method that is found is held by one of the classes. -/
theorem exists_of_findMethod? {name : String} {method : Function} : ∀ {cls : Class},
    cls.findMethod? name = some method → ∃ ancestor ∈ cls.lineage,
      ancestor.methods.get? name = some method
  | .mk _ _ none _, h => ⟨_, mem_cons_self, h⟩
  | .mk _ _ (some superclass) methods, h => by
    simp only [findMethod?] at h
    split at h
    · rename_i hown
      cases h
      exact ⟨_, mem_cons_self, hown⟩
    · obtain ⟨ancestor, hancestor, hmethod⟩ := exists_of_findMethod? h
      exact ⟨ancestor, mem_cons_of_mem _ hancestor, hmethod⟩

end Class

namespace Layout

variable {layout : Layout} {log : History} {decl : ClassDecl} {closure : ScopeId}

/-- A class that is made of a declaration. -/
theorem classFrom_makeClass (heap : Heap) {superclass : Option Class}
    (hspot : ∃ span, layout.spot ⟨.stmt (.classDecl span decl), around⟩)
    (hspots : ∀ spot ∈ FunctionDecl.methodSpots (decl.inside around) decl.methods,
      layout.spot spot) (hbodied : Bodied around)
    (hsuper : superclass.isSome = decl.superclass.isSome)
    (hsees : Around log closure (decl.inside around))
    (hbound : ∀ cls, superclass = some cls → (log.heap.bindings closure).get? "super" =
      some (.cls cls)) :
    layout.ClassFrom log (heap.makeClass decl.name.node superclass decl.methods
      closure).1 decl around closure := by
  have hmade : ∀ name,
      ((heap.makeClass decl.name.node superclass decl.methods closure).1.methods.get?
        name).map
          (fun method => (method.decl, method.closure, method.isInit)) =
        (decl.method? name).map fun method =>
          (method, closure, name == Class.initializer) :=
    fun name => (Heap.makeMethods_get?_eq closure name decl.methods ([], heap)).trans
      Option.or_none
  have hget : ∀ name method,
      (heap.makeClass decl.name.node superclass decl.methods closure).1.methods.get?
        name = some method → method.closure = closure ∧
        method.isInit = (name == Class.initializer) := by
    intro name method hmethod
    have hfacts := hmade name
    rw [hmethod] at hfacts
    obtain ⟨found, -, heq⟩ := Option.map_eq_some_iff.1 hfacts.symm
    simp only [Prod.mk.injEq] at heq
    exact ⟨heq.2.1.symm, heq.2.2.symm⟩
  refine ⟨rfl, hspot, hspots, hbodied, hsuper, fun name => ?_,
    fun name method hmethod => (hget name method hmethod).2, fun name method hmethod =>
    (hget name method hmethod).1, hsees, hbound⟩
  have hfacts := congrArg (Option.map Prod.fst) (hmade name)
  simpa only [Option.map_map, Function.comp_def, Option.map_id'] using hfacts

/-- A method of the code, as it is held by a class. -/
theorem ClassFrom.functionFrom (h : layout.ClassFrom log cls decl around closure)
    (hproper : layout.Proper) {method : Function}
    (hmethod : cls.methods.get? name = some method) :
    (∀ spot ∈ method.decl.spots (.receiver method.decl :: decl.inside around),
      layout.spot spot) ∧ ∀ param ∈ method.decl.params.map (·.node),
      ¬Reserved param := by
  have hdecl : decl.method? name = some method.decl := by
    rw [← h.methods name, hmethod]
    rfl
  have hmem : method.decl ∈ decl.methods := mem_reverse.1 (mem_of_find?_eq_some hdecl)
  refine ⟨fun spot hspot => h.spots spot (FunctionDecl.spots_subset_methodSpots hmem
    hspot), fun param hparam => ?_⟩
  obtain ⟨span, hspot⟩ := h.spot
  exact hproper.names _ hspot param
    (mem_cons_of_mem _ (mem_flatMap.2 ⟨_, hmem, hparam⟩))

/-- A class whose methods see the scope of a superclass has a superclass. -/
theorem ClassFrom.exists_superclass (h : layout.ClassFrom log cls decl around closure)
    {other : ClassDecl} (hclosure : log.origins[closure]? = some (.superclass other)) :
    ∃ superclass, cls.superclass? = some superclass := by
  have hopened := Option.some.inj (hclosure.symm.trans h.sees.origin_eq)
  rw [← Option.isSome_iff_exists, h.superclass]
  unfold ClassDecl.inside at hopened
  split at hopened
  · rename_i superclass hsuper
    rw [hsuper]
    rfl
  · -- without a superclass the scope would be that of a body or the global one
    have hbodied := h.bodied
    cases around with
    | nil => cases hopened
    | cons origin around =>
      obtain rfl : .superclass other = origin := hopened
      cases hbodied _ rfl

end Layout

end Treewalk
