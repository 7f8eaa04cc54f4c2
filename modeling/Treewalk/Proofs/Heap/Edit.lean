import Treewalk.Proofs.Scope.Event

/-!
# Edits of the heap

The machine changes the heap in five ways: it draws stamps, makes scopes inside others,
makes instances, binds names and sets fields. `Heap.Edits` is any sequence of these,
with a condition on the names that are bound and the scopes in which they are. So what
scopes see is settled when they are made, other scopes keep their bindings, no name is
ever unbound, and scopes nest:

* `Heap.Edits.chain`, `Heap.Edits.bindings`, `Heap.Edits.get?_bindings`: what a sequence
  of edits leaves alone.
* `Heap.Edits.has_bindings`, `Heap.Edits.nodup_names`: what was bound stays bound, and
  under one name.
* `Heap.Nested`: what is seen from a scope that an environment sees is the end of what
  the environment sees. Two scopes side by side are therefore never seen from one place
  (`Heap.Nested.eq_of_sees`).
-/

namespace Treewalk

open List

variable {name : String}

private theorem Table.mem_names_put {α : Type} {other : String} {value : α}
    {table : Table α} :
    other ∈ names (put name value table) ↔ other = name ∨ other ∈ names table := by
  induction table with
  | nil => simp [put, names]
  | cons entry rest ih =>
    obtain ⟨key, old⟩ := entry
    rw [put]
    by_cases hkey : key = name
    · rw [if_pos hkey]
      simp [names, hkey]
    · rw [if_neg hkey]
      simp only [names, map_cons, mem_cons] at ih ⊢
      rw [ih, or_left_comm]

private theorem Table.nodup_names_put {α : Type} (name : String) (value : α)
    {table : Table α} (h : (names table).Nodup) :
    (names (put name value table)).Nodup := by
  induction table with
  | nil => simp [put, names]
  | cons entry rest ih =>
    obtain ⟨key, old⟩ := entry
    obtain ⟨hfirst, hrest⟩ := nodup_cons.1 h
    rw [put]
    by_cases hkey : key = name
    · rw [if_pos hkey]
      exact h
    · rw [if_neg hkey]
      refine nodup_cons.2 ⟨fun hmem => ?_, ih hrest⟩
      rcases mem_names_put.1 hmem with heq | hold
      · exact hkey heq
      · exact hfirst hold

namespace Heap

variable {env : ScopeId}

/-! ## Sequences of edits -/

/-- The heap comes about from `old` by edits that bind names with `Writes` only. -/
inductive Edits (Writes : ScopeId → String → Prop) (old : Heap) : Heap → Prop
  | none : Edits Writes old old
  | draw {heap : Heap} (h : Edits Writes old heap) : Edits Writes old heap.draw.2
  | makeChild {heap : Heap} (h : Edits Writes old heap) (env : ScopeId)
      (table : Table Value) :
      Edits Writes old (heap.makeChild env table).2
  | makeInstance {heap : Heap} (h : Edits Writes old heap) (cls : Class) :
      Edits Writes old (heap.makeInstance cls).2
  | define {heap : Heap} (h : Edits Writes old heap) {env : ScopeId} {name : String}
      (writes : Writes env name) (value : Value) :
      Edits Writes old (heap.define env name value)
  | setField {heap : Heap} (h : Edits Writes old heap) (inst : Instance) (name : String)
      (value : Value) : Edits Writes old (heap.setField inst name value)

namespace Edits

variable {Writes : ScopeId → String → Prop} {old heap : Heap}

variable (h : Edits Writes old heap)

include h

theorem bind (method : Function) (receiver : Value) :
    Edits Writes old (heap.bind method receiver).2 :=
  (h.makeChild method.closure [("this", receiver)]).draw

theorem trans {new : Heap} (h' : Edits Writes heap new) : Edits Writes old new := by
  induction h' with
  | none => exact h
  | draw _ ih => exact ih.draw
  | makeChild _ env table ih => exact ih.makeChild env table
  | makeInstance _ cls ih => exact ih.makeInstance cls
  | define _ writes value ih => exact ih.define writes value
  | setField _ inst name value ih => exact ih.setField inst name value

omit h in
theorem makeMethods (closure : ScopeId) (decls : List FunctionDecl) :
    ∀ {methods : Table Function} {heap : Heap}, Edits Writes old heap →
      Edits Writes old (Heap.makeMethods closure (methods, heap) decls).2 := by
  induction decls with
  | nil =>
    intro methods heap h
    exact h
  | cons decl rest ih =>
    intro methods heap h
    exact ih h.draw

theorem makeClass (name : String) (superclass : Option Class)
    (methods : List FunctionDecl) (closure : ScopeId) :
    Edits Writes old (heap.makeClass name superclass methods closure).2 :=
  (h.makeMethods closure methods).draw

/-! ## What edits leave alone -/

theorem size_le : old.scopes.size ≤ heap.scopes.size := by
  induction h with
  | none => exact Nat.le_refl _
  | draw _ ih => exact ih
  | makeChild _ env table ih =>
    refine Nat.le_trans ih ?_
    simp [Heap.makeChild, Heap.makeScope]
  | makeInstance _ _ ih => exact ih
  | define _ _ _ ih =>
    refine Nat.le_trans ih ?_
    simp [Heap.define]
  | setField _ _ _ _ ih => exact ih

/-- A scope sees for ever what it saw when it was made. -/
theorem chain {env : ScopeId} (henv : env < old.scopes.size) :
    heap.chain env = old.chain env := by
  induction h with
  | none => rfl
  | draw _ ih => exact ih
  | makeChild h _ _ ih =>
    exact (chain_makeScope_of_lt (Nat.lt_of_lt_of_le henv h.size_le) _ _).trans ih
  | makeInstance _ _ ih => exact ih
  | define _ _ _ ih => exact (chain_define _ _ _ _ _).trans ih
  | setField _ _ _ _ ih => exact ih

/-- What holds of the bindings of a scope, and still holds whenever a name is written
there. -/
theorem holds_bindings {P : Table Value → Prop} (henv : env < old.scopes.size)
    (hold : P (old.bindings env))
    (hput : ∀ {table key}, Writes env key → P table → ∀ value, P (table.put key value))
    : P (heap.bindings env) := by
  induction h with
  | none => exact hold
  | draw _ ih => exact ih
  | makeChild h _ _ ih =>
    have hne := Nat.ne_of_lt (Nat.lt_of_lt_of_le henv h.size_le)
    rw [Heap.makeChild, bindings_makeScope_of_ne hne]
    exact ih
  | makeInstance _ _ ih => exact ih
  | @define heap h other key writes value ih =>
    by_cases henv' : env = other
    · subst henv'
      rw [bindings_define_self (Nat.lt_of_lt_of_le henv h.size_le)]
      exact hput writes ih value
    · rw [bindings_define_of_ne henv']
      exact ih
  | setField _ _ _ _ ih => exact ih

/-- A name that is not written in a scope keeps its value there. -/
theorem get?_bindings (henv : env < old.scopes.size) (hspared : ¬Writes env name) :
    (heap.bindings env).get? name = (old.bindings env).get? name := by
  refine h.holds_bindings (P := fun table => table.get? name = _) henv rfl
    fun {table key} writes ih value => ?_
  have hne : name ≠ key := fun same => hspared (same ▸ writes)
  rw [Table.get?_put_of_ne hne, ih]

theorem bindings {env : ScopeId} (henv : env < old.scopes.size)
    (hspared : ∀ name, ¬Writes env name) :
    heap.bindings env = old.bindings env :=
  h.holds_bindings (P := fun table => table = _) henv rfl fun writes =>
    absurd writes (hspared _)

/-- What was bound stays bound, if not to the same value. -/
theorem has_bindings (hbound : (old.bindings env).has name = true) :
    (heap.bindings env).has name = true := by
  obtain ⟨bound, hvalue⟩ := Option.isSome_iff_exists.1 hbound
  refine h.holds_bindings (P := fun table => table.has name = true)
    (lt_size_of_get? hvalue) hbound ?_
  intro table key _ ih value
  by_cases hkey : name = key
  · rw [hkey, Table.has, Table.get?_put_self]
    rfl
  · rw [Table.has, Table.get?_put_of_ne hkey]
    exact ih

/-- Names stay apart. -/
theorem nodup_names (henv : env < old.scopes.size)
    (hold : (Table.names (old.bindings env)).Nodup) :
    (Table.names (heap.bindings env)).Nodup :=
  h.holds_bindings (P := fun table => table.names.Nodup) henv hold fun _ ih value =>
    Table.nodup_names_put _ value ih

end Edits

/-! ## Nesting -/

/-- A new scope sees what the scope around it sees. -/
theorem chain_makeChild {heap : Heap} (henv : env < heap.scopes.size)
    (table : Table Value) :
    (heap.makeChild env table).2.chain heap.scopes.size =
      heap.scopes.size :: (heap.makeChild env table).2.chain env := by
  rw [makeChild, chain_makeScope_self, chain_makeScope_of_lt henv]

/-- What an environment sees was made no later, and sees the end of what the environment
sees. -/
structure Nested (heap : Heap) : Prop where
  le : ∀ env, ∀ scope ∈ heap.chain env, scope ≤ env
  suffix : ∀ env, ∀ scope ∈ heap.chain env, heap.chain scope <:+ heap.chain env

namespace Nested

variable {heap : Heap}

variable (h : heap.Nested)

include h

theorem lt_size {scope : ScopeId} (hscope : scope ∈ heap.chain env) :
    scope < heap.scopes.size :=
  Nat.lt_of_le_of_lt (h.le env scope hscope) (lt_size_of_chain (ne_nil_of_mem hscope))

theorem of_scopes_eq {new : Heap} (hscopes : new.scopes = heap.scopes) :
    new.Nested := by
  have hchain : new.chain = heap.chain := by
    funext env
    simp only [Heap.chain, hscopes]
  exact ⟨by rw [hchain]; exact h.le, by rw [hchain]; exact h.suffix⟩

theorem define (env : ScopeId) (name : String) (value : Value) :
    (heap.define env name value).Nested where
  le other scope hscope := by
    rw [chain_define] at hscope
    exact h.le other scope hscope
  suffix other scope hscope := by
    rw [chain_define] at hscope ⊢
    rw [chain_define]
    exact h.suffix other scope hscope

theorem makeChild (env : ScopeId) (table : Table Value) :
    (heap.makeChild env table).2.Nested := by
  have hsize : (heap.makeChild env table).2.scopes.size = heap.scopes.size + 1 := by
    simp [Heap.makeChild, Heap.makeScope]
  have hself := heap.chain_makeScope_self (heap.chain env) table
  have hkept : ∀ {other}, other < heap.scopes.size →
      (heap.makeChild env table).2.chain other = heap.chain other :=
    fun hlt => chain_makeScope_of_lt hlt (heap.chain env) table
  -- What is seen from the new scope is the new scope, and what was seen from around it.
  have hcases : ∀ other, ∀ scope ∈ (heap.makeChild env table).2.chain other,
      (other = heap.scopes.size ∧ scope = heap.scopes.size) ∨
      (other = heap.scopes.size ∧ scope ∈ heap.chain env) ∨
      (other < heap.scopes.size ∧ scope ∈ heap.chain other) := by
    intro other scope hscope
    have hother : other < heap.scopes.size + 1 :=
      hsize ▸ lt_size_of_chain (ne_nil_of_mem hscope)
    rcases Nat.lt_succ_iff_lt_or_eq.1 hother with hlt | rfl
    · rw [hkept hlt] at hscope
      exact .inr (.inr ⟨hlt, hscope⟩)
    · have hmem : scope ∈ heap.scopes.size :: heap.chain env := hself ▸ hscope
      rcases mem_cons.1 hmem with rfl | hmem
      · exact .inl ⟨rfl, rfl⟩
      · exact .inr (.inl ⟨rfl, hmem⟩)
  constructor
  · intro other scope hscope
    rcases hcases other scope hscope with ⟨rfl, rfl⟩ | ⟨rfl, hmem⟩ | ⟨-, hmem⟩
    · exact Nat.le_refl _
    · exact Nat.le_of_lt (h.lt_size hmem)
    · exact h.le other scope hmem
  · intro other scope hscope
    rcases hcases other scope hscope with ⟨rfl, rfl⟩ | ⟨rfl, hmem⟩ | ⟨hlt, hmem⟩
    · exact suffix_refl _
    · rw [hkept (h.lt_size hmem)]
      show _ <:+ (heap.makeScope (heap.chain env) table).2.chain heap.scopes.size
      rw [hself]
      exact (h.suffix env scope hmem).trans (suffix_cons _ _)
    · rw [hkept (h.lt_size hmem), hkept hlt]
      exact h.suffix other scope hmem

omit h in
/-- Edits keep scopes nested. -/
theorem edits {Writes : ScopeId → String → Prop} {old : Heap} (hold : old.Nested)
    (h : Edits Writes old heap) : heap.Nested := by
  induction h with
  | none => exact hold
  | draw _ ih => exact ih.of_scopes_eq rfl
  | makeChild _ env table ih => exact ih.makeChild env table
  | makeInstance _ _ ih => exact ih.of_scopes_eq rfl
  | define _ _ value ih => exact ih.define _ _ value
  | setField _ _ _ _ ih => exact ih.of_scopes_eq rfl

/-- No environment sees two scopes that were made side by side. -/
theorem eq_of_sees {a b : ScopeId} {outer : List ScopeId}
    (ha : heap.chain a = a :: outer) (hb : heap.chain b = b :: outer)
    (hsees : a ∈ heap.chain env) (hsees' : b ∈ heap.chain env) : a = b := by
  have hlength : (heap.chain a).length = (heap.chain b).length := by rw [ha, hb]; rfl
  have hsuffix :=
    suffix_of_suffix_length_le (h.suffix env a hsees) (h.suffix env b hsees')
    (Nat.le_of_eq hlength)
  have hsame : a :: outer = b :: outer := by
    rw [← ha, ← hb, hsuffix.eq_of_length hlength]
  exact (List.cons.inj hsame).1

end Nested

end Heap

end Treewalk
