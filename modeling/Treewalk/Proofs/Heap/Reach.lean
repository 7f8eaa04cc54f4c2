import Treewalk.Proofs.Machine.Holdings
import Treewalk.Proofs.Scope.Event

/-!
# What can be reached in the heap

The heap has two sorts of cells, the bindings of scopes and the fields of instances. A
value holds the cells that it names: a function the scope that it closes over, a class
those of its methods and of its superclass, an instance its fields and what its class
holds. From a scope one comes to the scopes around it and to what its bindings hold,
from an instance to what its fields hold; `Heap.Reachable` is where this leads from
given cells.

A `Territory` is a set of cells with the global scope and everything that is yet to be
made in it. It confines a heap (`Territory.Confines`) if nothing leads out of it and
everything outside is as before; each operation on the heap keeps this, given that what
it works with is inside. What is reachable from given cells is a territory that confines
the heap as it is (`Heap.confines_territory`).
-/

namespace Treewalk

open List

variable {heap : Heap} {env : ScopeId}

/-! ## Cells -/

/-- Something whose contents a run may change. -/
inductive Cell where
  | scope (env : ScopeId)
  | inst (address : Nat)
deriving DecidableEq

/-- The scopes that methods close over. -/
def Table.closures (methods : Table Function) : List Cell :=
  methods.map fun entry => .scope entry.2.closure

/-- The cells that a class holds, with those of its superclass. -/
def Class.cells : Class → List Cell
  | mk _ _ none methods => methods.closures
  | mk _ _ (some superclass) methods => methods.closures ++ superclass.cells

/-- The cells that something callable holds. -/
def Callable.cells : Callable → List Cell
  | function f => [.scope f.closure]
  | cls c => c.cells
  | native _ => []

/-- The cells that a value holds. -/
def Value.cells : Value → List Cell
  | callable c => c.cells
  | cls c => c.cells
  | inst i => .inst i.address :: i.cls.cells
  | _ => []

/-- The cells that the values of a table hold. -/
def Table.cells (table : Table Value) : List Cell :=
  table.flatMap fun entry => entry.2.cells

variable {roots : List Cell}

namespace Heap

/-- Where a cell leads to. -/
def cellsFrom (heap : Heap) : Cell → List Cell
  | .scope env => (heap.chain env).map .scope ++ Table.cells (heap.bindings env)
  | .inst address => Table.cells (heap.fields[address]?.getD [])

/-- The cells to which the roots lead. -/
inductive Reachable (heap : Heap) (roots : List Cell) : Cell → Prop
  | root {cell : Cell} (h : cell ∈ roots) : Reachable heap roots cell
  | next {cell other : Cell} (h : Reachable heap roots cell)
      (leads : other ∈ heap.cellsFrom cell) :
      Reachable heap roots other

/-- Cells that have the roots among them and lead to nothing else are all that is
reachable. -/
theorem Reachable.mem_of_closed {cells : List Cell}
    (hroots : ∀ cell ∈ roots, cell ∈ cells)
    (hclosed : ∀ cell ∈ cells, ∀ other ∈ heap.cellsFrom cell, other ∈ cells)
    {cell : Cell} (h : heap.Reachable roots cell) : cell ∈ cells := by
  induction h with
  | root h => exact hroots _ h
  | next _ leads ih => exact hclosed _ ih _ leads

end Heap

/-! ## Territories -/

/-- Cells that a run may change: the global scope, what is made from now on, and
others. -/
structure Territory (old : Heap) where
  Has : Cell → Prop
  global : Has (.scope globalScope)
  newScope : ∀ env, old.scopes.size ≤ env → Has (.scope env)
  newInst : ∀ address, old.fields.size ≤ address → Has (.inst address)

namespace Territory

variable {old : Heap} (land : Territory old) {value : Value}

/-- All cells that the value holds are inside. -/
def Holds (value : Value) : Prop :=
  ∀ cell ∈ value.cells, land.Has cell

variable {land}

theorem holds_of_cells_eq_nil (h : value.cells = []) : land.Holds value := by
  intro cell hcell
  rw [h] at hcell
  cases hcell

theorem holds_of_isComparable (h : value.isComparable = true) : land.Holds value := by
  cases value with
  | callable callable => cases h
  | cls cls => cases h
  | inst inst => cases h
  | fault stamp fault => cases h
  | _ => exact holds_of_cells_eq_nil rfl

theorem holds_function {f : Function} :
    land.Holds (.callable (.function f)) ↔ land.Has (.scope f.closure) := by
  refine ⟨fun h => h _ mem_cons_self, fun h cell hcell => ?_⟩
  obtain rfl := mem_singleton.1 hcell
  exact h

theorem holds_inst {inst : Instance} :
    land.Holds (.inst inst) ↔ land.Has (.inst inst.address) ∧
      land.Holds (.cls inst.cls) := by
  constructor
  · intro h
    exact ⟨h _ mem_cons_self, fun cell hcell => h cell (mem_cons_of_mem _ hcell)⟩
  · rintro ⟨haddress, hcls⟩ cell hcell
    rcases mem_cons.1 hcell with rfl | hcell
    · exact haddress
    · exact hcls cell hcell

/-- What a method of a class closes over is held by the class. -/
theorem has_of_findMethod? {name : String} {method : Function} :
    ∀ {cls : Class}, land.Holds (.cls cls) → cls.findMethod? name = some method →
      land.Has (.scope method.closure)
  | .mk _ _ none _, h, hfound =>
    h _ (mem_map.2 ⟨_, Table.mem_of_get? hfound, rfl⟩)
  | .mk _ _ (some superclass) methods, h, hfound => by
    simp only [Class.findMethod?] at hfound
    split at hfound
    · rename_i hown
      cases hfound
      have hmem : Cell.scope method.closure ∈ methods.closures :=
        mem_map.2 ⟨_, Table.mem_of_get? hown, rfl⟩
      exact h _ (mem_append_left _ hmem)
    · exact has_of_findMethod? (fun cell hcell => h cell (mem_append_right _ hcell))
        hfound

/-! ## Confined heaps -/

/-- Nothing leads out of the territory, and everything outside is as in the old heap. -/
structure Confines (land : Territory old) (heap : Heap) : Prop where
  scopes_le : old.scopes.size ≤ heap.scopes.size
  fields_le : old.fields.size ≤ heap.fields.size
  chain : ∀ env, land.Has (.scope env) → ∀ scope ∈ heap.chain env,
    land.Has (.scope scope)
  bindings : ∀ env, land.Has (.scope env) → Table.Holds land.Holds (heap.bindings env)
  fields : ∀ address, land.Has (.inst address) →
    Table.Holds land.Holds (heap.fields[address]?.getD [])
  scopes_eq : ∀ env, ¬land.Has (.scope env) → heap.scopes[env]? = old.scopes[env]?
  fields_eq : ∀ address, ¬land.Has (.inst address) →
    heap.fields[address]? = old.fields[address]?

namespace Confines

variable {heap : Heap} {name : String} {distance : Nat}

/-! ### Making things -/

section

variable (h : land.Confines heap)

include h

theorem has_newScope : land.Has (.scope heap.scopes.size) :=
  land.newScope _ h.scopes_le

/-- Outside the territory nothing new is made, so that is not where the new scope is. -/
theorem makeChild {env : ScopeId} (henv : land.Has (.scope env)) {table : Table Value}
    (htable : Table.Holds land.Holds table) :
    land.Confines (heap.makeChild env table).2 where
  scopes_le := by
    refine Nat.le_trans h.scopes_le ?_
    simp [Heap.makeChild, Heap.makeScope]
  fields_le := h.fields_le
  chain other hother scope hscope := by
    by_cases hnew : other = heap.scopes.size
    · subst hnew
      rw [show (heap.makeChild env table).2.chain heap.scopes.size = _ from
        heap.chain_makeScope_self (heap.chain env) table] at hscope
      rcases mem_cons.1 hscope with rfl | hscope
      · exact hother
      · exact h.chain env henv scope hscope
    · have hkept : (heap.makeChild env table).2.chain other = heap.chain other := by
        simp [Heap.chain, Heap.makeChild, Heap.makeScope, Array.getElem?_push, hnew]
      rw [hkept] at hscope
      exact h.chain other hother scope hscope
  bindings other hother := by
    by_cases hnew : other = heap.scopes.size
    · subst hnew
      rw [show (heap.makeChild env table).2.bindings heap.scopes.size = table from
        heap.bindings_makeScope_self (heap.chain env) table]
      exact htable
    · rw [show (heap.makeChild env table).2.bindings other = heap.bindings other from
        Heap.bindings_makeScope_of_ne hnew (heap.chain env) table]
      exact h.bindings other hother
  fields := h.fields
  scopes_eq other hother := by
    have hnew : other ≠ heap.scopes.size := fun same => hother (same ▸ h.has_newScope)
    rw [← h.scopes_eq other hother]
    simp [Heap.makeChild, Heap.makeScope, Array.getElem?_push, hnew]
  fields_eq := h.fields_eq

theorem makeInstance (cls : Class) : land.Confines (heap.makeInstance cls).2 where
  scopes_le := h.scopes_le
  fields_le := by
    refine Nat.le_trans h.fields_le ?_
    simp [Heap.makeInstance]
  chain := h.chain
  bindings := h.bindings
  fields address haddress := by
    simp only [Heap.makeInstance, Array.getElem?_push]
    split
    · exact .nil
    · exact h.fields address haddress
  scopes_eq := h.scopes_eq
  fields_eq address haddress := by
    have hnew : address ≠ heap.fields.size :=
      fun same => haddress (same ▸ land.newInst _ h.fields_le)
    rw [← h.fields_eq address haddress]
    simp [Heap.makeInstance, Array.getElem?_push, hnew]

theorem holds_makeInstance {cls : Class} (hcls : land.Holds (.cls cls)) :
    land.Holds (.inst (heap.makeInstance cls).1) :=
  holds_inst.2 ⟨land.newInst _ h.fields_le, hcls⟩

theorem draw : land.Confines heap.draw.2 :=
  ⟨h.scopes_le, h.fields_le, h.chain, h.bindings, h.fields, h.scopes_eq, h.fields_eq⟩

theorem bind {method : Function} (hmethod : land.Has (.scope method.closure))
    {receiver : Value} (hreceiver : land.Holds receiver) :
    land.Confines (heap.bind method receiver).2 := by
  refine (h.makeChild hmethod fun entry hentry => ?_).draw
  obtain rfl := mem_singleton.1 hentry
  exact hreceiver

theorem holds_bind (method : Function) (receiver : Value) :
    land.Holds (.callable (.function (heap.bind method receiver).1)) :=
  holds_function.2 h.has_newScope

end

/-- The methods of a class close over the scope that it was given. -/
private theorem makeMethods {closure : ScopeId} (hclosure : land.Has (.scope closure))
    (decls : List FunctionDecl) :
    ∀ (methods : Table Function) {heap : Heap}, land.Confines heap →
      (∀ cell ∈ methods.closures, land.Has cell) →
      land.Confines (Heap.makeMethods closure (methods, heap) decls).2 ∧
        ∀ cell ∈ (Heap.makeMethods closure (methods, heap) decls).1.closures,
          land.Has cell := by
  induction decls with
  | nil =>
    intro methods heap h hmethods
    exact ⟨h, hmethods⟩
  | cons decl rest ih =>
    intro methods heap h hmethods
    refine ih _ h.draw fun cell hcell => ?_
    obtain ⟨entry, hentry, rfl⟩ := mem_map.1 hcell
    rcases Table.mem_of_mem_put hentry with hold | rfl
    · exact hmethods _ (mem_map.2 ⟨entry, hold, rfl⟩)
    · exact hclosure

section

variable (h : land.Confines heap)

include h

theorem makeClass (name : String) {superclass : Option Class}
    (hsuper : ∀ cls ∈ superclass, land.Holds (.cls cls)) (methods : List FunctionDecl)
    {closure : ScopeId} (hclosure : land.Has (.scope closure)) :
    land.Confines (heap.makeClass name superclass methods closure).2 ∧
      land.Holds (.cls (heap.makeClass name superclass methods closure).1) := by
  have hnone : ∀ cell ∈ Table.closures [], land.Has cell := by
    intro cell hcell
    cases hcell
  obtain ⟨hmade, hmethods⟩ := makeMethods hclosure methods [] h hnone
  refine ⟨hmade.draw, ?_⟩
  cases superclass with
  | none => exact hmethods
  | some superclass =>
    intro cell hcell
    rcases mem_append.1 hcell with hown | hinherited
    · exact hmethods cell hown
    · exact hsuper superclass rfl cell hinherited

/-! ### Changing things -/

theorem define {env : ScopeId} (henv : land.Has (.scope env)) (name : String)
    {value : Value} (hvalue : land.Holds value) :
    land.Confines (heap.define env name value) where
  scopes_le := by simpa [Heap.define] using h.scopes_le
  fields_le := h.fields_le
  chain other hother scope hscope := by
    rw [Heap.chain_define] at hscope
    exact h.chain other hother scope hscope
  bindings other hother := by
    by_cases hsame : other = env
    · subst hsame
      by_cases hmade : other < heap.scopes.size
      · rw [Heap.bindings_define_self hmade]
        exact (h.bindings other hother).put name hvalue
      · have hnone : heap.scopes[other]? = none :=
          Array.getElem?_eq_none (Nat.le_of_not_lt hmade)
        simp only [Heap.bindings, Heap.define, Array.getElem?_modify, hnone,
          Option.map_none, if_true]
        exact .nil
    · rw [Heap.bindings_define_of_ne hsame]
      exact h.bindings other hother
  fields := h.fields
  scopes_eq other hother := by
    have hne : ¬env = other := fun same => hother (same ▸ henv)
    rw [← h.scopes_eq other hother]
    simp [Heap.define, Array.getElem?_modify, hne]
  fields_eq := h.fields_eq

theorem setField {inst : Instance} (hinst : land.Holds (.inst inst)) (name : String)
    {value : Value} (hvalue : land.Holds value) :
    land.Confines (heap.setField inst name value) where
  scopes_le := h.scopes_le
  fields_le := by simpa [Heap.setField] using h.fields_le
  chain := h.chain
  bindings := h.bindings
  fields address haddress := by
    have hold := h.fields address haddress
    simp only [Heap.setField, Array.getElem?_modify]
    split
    · cases hfields : heap.fields[address]? with
      | none => exact .nil
      | some table =>
        rw [hfields] at hold
        exact Table.Holds.put hold name hvalue
    · exact hold
  scopes_eq := h.scopes_eq
  fields_eq address haddress := by
    have hne : ¬inst.address = address :=
      fun same => haddress (same ▸ (holds_inst.1 hinst).1)
    rw [← h.fields_eq address haddress]
    simp [Heap.setField, Array.getElem?_modify, hne]

/-! ### Reading -/

theorem holds_lookup? (henv : land.Has (.scope env))
    (hvalue : heap.lookup? env name = some value) :
    land.Holds value := by
  obtain ⟨scope, hscope, hfound⟩ := exists_of_findSome?_eq_some hvalue
  exact (h.bindings scope (h.chain env henv scope hscope)).get? hfound

private theorem has_ancestor (henv : land.Has (.scope env)) {scope : ScopeId}
    (hscope : heap.ancestor env distance = .ok scope) : land.Has (.scope scope) := by
  unfold Heap.ancestor at hscope
  simp only at hscope
  split at hscope
  · rename_i hat
    cases hscope
    exact h.chain env henv _ (mem_of_getElem? hat)
  · cases hscope

theorem holds_getAt (henv : land.Has (.scope env))
    (hvalue : heap.getAt env distance name = .ok value) :
    land.Holds value := by
  unfold Heap.getAt at hvalue
  split at hvalue
  · cases hvalue
  · rename_i scope hscope
    split at hvalue
    · rename_i hfound
      cases hvalue
      exact (h.bindings scope (h.has_ancestor henv hscope)).get? hfound
    · cases hvalue

theorem has_slotAt (henv : land.Has (.scope env)) {scope : ScopeId}
    (hscope : heap.slotAt env distance name = .ok scope) : land.Has (.scope scope) := by
  unfold Heap.slotAt at hscope
  split at hscope
  · cases hscope
  · rename_i found hfound
    split at hscope
    · cases hscope
      exact h.has_ancestor henv hfound
    · cases hscope

theorem holdsTable_fieldsOf {inst : Instance} (hinst : land.Holds (.inst inst)) :
    Table.Holds land.Holds (heap.fieldsOf inst) :=
  h.fields inst.address (holds_inst.1 hinst).1

end

end Confines

end Territory

/-! ## What is reachable as a territory -/

namespace Heap

/-- What the roots lead to, and what is yet to be made. -/
def territory (heap : Heap) {roots : List Cell} (hglobal : .scope globalScope ∈ roots) :
    Territory heap where
  Has cell := heap.Reachable roots cell ∨
    match cell with
    | .scope env => heap.scopes.size ≤ env
    | .inst address => heap.fields.size ≤ address
  global := .inl (.root hglobal)
  newScope _ hnew := .inr hnew
  newInst _ hnew := .inr hnew

private theorem has_of_cellsFrom (hglobal : .scope globalScope ∈ roots)
    {cell other : Cell} (hcell : (heap.territory hglobal).Has cell)
    (leads : other ∈ heap.cellsFrom cell) :
    (heap.territory hglobal).Has other := by
  rcases hcell with hreach | hnew
  · exact .inl (.next hreach leads)
  · cases cell with
    | scope env =>
      have hnone : heap.scopes[env]? = none := Array.getElem?_eq_none hnew
      simp [cellsFrom, chain, bindings, hnone, Table.cells] at leads
    | inst address =>
      have hnone : heap.fields[address]? = none := Array.getElem?_eq_none hnew
      simp [cellsFrom, hnone, Table.cells] at leads

theorem confines_territory (heap : Heap) (hglobal : .scope globalScope ∈ roots) :
    (heap.territory hglobal).Confines heap where
  scopes_le := Nat.le_refl _
  fields_le := Nat.le_refl _
  chain _ henv scope hscope :=
    has_of_cellsFrom hglobal henv (mem_append_left _ (mem_map.2 ⟨scope, hscope, rfl⟩))
  bindings _ henv entry hentry _ hcell :=
    has_of_cellsFrom hglobal henv
      (mem_append_right _ (mem_flatMap.2 ⟨entry, hentry, hcell⟩))
  fields _ haddress entry hentry _ hcell :=
    has_of_cellsFrom hglobal haddress (mem_flatMap.2 ⟨entry, hentry, hcell⟩)
  scopes_eq _ _ := rfl
  fields_eq _ _ := rfl

theorem not_has_territory_scope (hglobal : .scope globalScope ∈ roots)
    (hmade : env < heap.scopes.size) (h : ¬heap.Reachable roots (.scope env)) :
    ¬(heap.territory hglobal).Has (.scope env) := by
  rintro (hreach | hnew)
  · exact h hreach
  · exact Nat.lt_irrefl env (Nat.lt_of_lt_of_le hmade hnew)

theorem not_has_territory_inst (hglobal : .scope globalScope ∈ roots) {address : Nat}
    (hmade : address < heap.fields.size) (h : ¬heap.Reachable roots (.inst address)) :
    ¬(heap.territory hglobal).Has (.inst address) := by
  rintro (hreach | hnew)
  · exact h hreach
  · exact Nat.lt_irrefl address (Nat.lt_of_lt_of_le hmade hnew)

end Heap

end Treewalk
