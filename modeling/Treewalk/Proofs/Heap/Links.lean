import Treewalk.Proofs.Heap.Edit
import Treewalk.Proofs.Heap.Environment

/-!
# Links between scopes

A scope is made inside one that is there, so every parent link leads to a scope that was
made earlier, and no walk along the links takes more steps than there are scopes before
the first one. `Heap.Founded` says so, and that what looks for names in an environment
is such a walk: it takes what the scope has, or goes on at the parent. Edits of the heap
keep all this (`Heap.Chained.edits`, `Heap.Nested.edits`), and what there is stays
(`Heap.Grows`).
-/

namespace Treewalk.Heap

variable {heap : Heap} {env : ScopeId}

/-! ## Walks -/

/-- Parent links lead to earlier scopes, so that walks along them end; and the
operations on environments are such walks. -/
structure Founded (heap : Heap) : Prop where
  earlier : ∀ env parent, heap.parent? env = some parent → parent < env
  ends : ∀ env distance, env < distance → heap.climb? env distance = none
  lookup : ∀ env name, heap.lookup? env name =
    ((heap.bindings env).get? name).or
      ((heap.parent? env).bind fun parent => heap.lookup? parent name)
  assign : ∀ env name value, heap.assign? env name value =
    if (heap.bindings env).has name then some (heap.define env name value)
    else (heap.parent? env).bind fun parent => heap.assign? parent name value
  getHere : ∀ env < heap.scopes.size, ∀ name, heap.getAt env 0 name =
    ((heap.bindings env).get? name).elim (.error (.undefinedVariable name [])) .ok
  getOut : ∀ env < heap.scopes.size, ∀ distance name,
    heap.getAt env (distance + 1) name =
    (heap.parent? env).elim (.error (.missingScope name (distance + 1))) fun parent =>
    heap.getAt parent distance name
  assignHere : ∀ env < heap.scopes.size, ∀ name value, heap.assignAt env 0 name value =
    if (heap.bindings env).has name then .ok (heap.define env name value)
    else .error (.undefinedVariable name [])
  assignOut : ∀ env < heap.scopes.size, ∀ distance name value,
    heap.assignAt env (distance + 1) name value =
    (heap.parent? env).elim (.error (.missingScope name (distance + 1)))
      fun parent => heap.assignAt parent distance name value
  visible : ∀ env, heap.visibleNames env =
    (heap.bindings env).names ++ (heap.parent? env).elim [] heap.visibleNames

private theorem chain_of_size_le (h : heap.scopes.size ≤ env) :
    heap.chain env = [] ∧ heap.parent? env = none ∧ heap.bindings env = [] := by
  have hnone := Array.getElem?_eq_none h
  exact ⟨by simp only [chain, hnone], by simp only [parent?, hnone,
    Option.bind_none], by simp only [bindings, hnone]⟩

namespace Chained

variable (h : heap.Chained)

include h

/-- What is seen from a scope is the scope, and what is seen from its parent. -/
theorem chain_eq (henv : env < heap.scopes.size) :
    heap.chain env = env :: (heap.parent? env).elim [] heap.chain := by
  obtain ⟨scope, hscope⟩ : ∃ scope, heap.scopes[env]? = some scope :=
    ⟨_, Array.getElem?_eq_getElem henv⟩
  rw [chain_of_getElem? hscope, parent?, hscope, Option.bind_some]
  rcases h env scope hscope with hnil | ⟨parent, hlt, hchain⟩
  · rw [hnil]
    rfl
  · have hhead : (heap.chain parent).head? = some parent := by
      rw [chain, Array.getElem?_eq_getElem hlt]
      rfl
    rw [hchain, hhead]
    rfl

private theorem parent_lt (hnested : heap.Nested) {parent : ScopeId}
    (hparent : heap.parent? env = some parent) :
    parent < env := by
  have henv : env < heap.scopes.size := by
    refine Nat.lt_of_not_le fun hle => ?_
    rw [(chain_of_size_le hle).2.1] at hparent
    cases hparent
  have hchain := h.chain_eq henv
  rw [hparent, Option.elim_some] at hchain
  have hseen : parent ∈ heap.chain env := by
    obtain ⟨scope, hscope, hhead⟩ := Option.bind_eq_some_iff.1 hparent
    rw [chain_of_getElem? hscope]
    exact List.mem_cons_of_mem _ (List.mem_of_mem_head? hhead)
  refine Nat.lt_of_le_of_ne (hnested.le env parent hseen) ?_
  -- A scope that is its own parent would see one scope more than it sees.
  rintro rfl
  have hlength := congrArg List.length hchain
  simp at hlength

private theorem climb?_eq_none (hnested : heap.Nested) {distance : Nat}
    (hlt : env < distance) :
    heap.climb? env distance = none := by
  induction distance generalizing env with
  | zero => exact absurd hlt (Nat.not_lt_zero env)
  | succ distance ih =>
    rw [climb?]
    cases hparent : heap.parent? env with
    | none => rfl
    | some parent =>
      exact ih
        (Nat.lt_of_lt_of_le (h.parent_lt hnested hparent) (Nat.le_of_lt_succ hlt))

private theorem lookup?_eq (env : ScopeId) (name : String) : heap.lookup? env name =
    ((heap.bindings env).get? name).or
      ((heap.parent? env).bind fun parent => heap.lookup? parent name) := by
  rcases Nat.lt_or_ge env heap.scopes.size with henv | henv
  · rw [lookup?, h.chain_eq henv, List.findSome?_cons]
    cases (heap.bindings env).get? name with
    | some value => rfl
    | none => cases heap.parent? env <;> rfl
  · obtain ⟨hchain, hparent, hbindings⟩ := chain_of_size_le henv
    rw [lookup?, hchain, hparent, hbindings]
    rfl

theorem assign?_eq (env : ScopeId) (name : String) (value : Value) :
    heap.assign? env name value =
    if (heap.bindings env).has name then some (heap.define env name value)
    else (heap.parent? env).bind fun parent => heap.assign? parent name value := by
  rcases Nat.lt_or_ge env heap.scopes.size with henv | henv
  · rw [assign?, owner?, h.chain_eq henv, List.find?_cons]
    cases (heap.bindings env).has name with
    | true => rfl
    | false => cases heap.parent? env <;> rfl
  · obtain ⟨hchain, hparent, hbindings⟩ := chain_of_size_le henv
    rw [assign?, owner?, hchain, hparent, hbindings]
    rfl

private theorem visibleNames_eq (env : ScopeId) :
    heap.visibleNames env = (heap.bindings env).names ++ (heap.parent? env).elim []
      heap.visibleNames := by
  rcases Nat.lt_or_ge env heap.scopes.size with henv | henv
  · rw [visibleNames, visibleTables, h.chain_eq henv, List.map_cons, List.flatten_cons]
    cases heap.parent? env <;> rfl
  · obtain ⟨hchain, hparent, hbindings⟩ := chain_of_size_le henv
    rw [visibleNames, visibleTables, hchain, hparent, hbindings]
    rfl

private theorem ancestor_zero (henv : env < heap.scopes.size) :
    heap.ancestor env 0 = .ok env := by
  simp only [ancestor, h.chain_eq henv, List.getElem?_cons_zero]

private theorem ancestor_succ (henv : env < heap.scopes.size) (distance : Nat) :
    heap.ancestor env (distance + 1) =
      (heap.parent? env).elim (.error (distance + 1)) fun parent =>
        heap.ancestor parent distance := by
  simp only [ancestor, h.chain_eq henv, List.getElem?_cons_succ, List.length_cons]
  cases heap.parent? env with
  | none => simp
  | some parent =>
    rw [Option.elim_some, Option.elim_some, Nat.add_sub_add_right]

theorem founded (hnested : heap.Nested) : heap.Founded where
  earlier _ _ hparent := h.parent_lt hnested hparent
  ends _ _ hlt := h.climb?_eq_none hnested hlt
  lookup := h.lookup?_eq
  assign := h.assign?_eq
  getHere env henv name := by
    simp only [getAt, h.ancestor_zero henv]
    cases (heap.bindings env).get? name <;> rfl
  getOut env henv distance name := by
    simp only [getAt, h.ancestor_succ henv]
    cases heap.parent? env <;> rfl
  assignHere env henv name value := by
    simp only [assignAt, slotAt, h.ancestor_zero henv]
    cases (heap.bindings env).has name <;> rfl
  assignOut env henv distance name value := by
    simp only [assignAt, slotAt, h.ancestor_succ henv]
    cases heap.parent? env <;> rfl
  visible := h.visibleNames_eq

private theorem of_scopes_eq {new : Heap} (hscopes : new.scopes = heap.scopes) :
    new.Chained := by
  intro env scope hscope
  have hchain : new.chain = heap.chain := by
    funext env
    simp only [Heap.chain, hscopes]
  rw [hscopes] at hscope ⊢
  rw [hchain]
  exact h env scope hscope

omit h in
/-- Edits keep the list of scopes around each scope true. -/
theorem edits {Writes : ScopeId → String → Prop} {old : Heap} (hold : old.Chained)
    (h : Edits Writes old heap) :
    heap.Chained := by
  induction h with
  | none => exact hold
  | draw _ ih => exact ih.of_scopes_eq rfl
  | makeChild _ env table ih => exact ih.makeChild env table
  | makeInstance _ _ ih => exact ih.of_scopes_eq rfl
  | define _ _ value ih => exact ih.define _ _ value
  | setField _ _ _ _ ih => exact ih.of_scopes_eq rfl

end Chained

theorem chained_start (natives : List Native) : (Heap.start natives).Chained :=
  chained_empty.makeChild 0 _

/-! ## Growth -/

/-- What there is stays: scopes with their parents, names that are bound and fields that
are set, and stamps are drawn in order. -/
structure Grows (old new : Heap) : Prop where
  size : old.scopes.size ≤ new.scopes.size
  nextStamp : old.nextStamp ≤ new.nextStamp
  parent : ∀ env < old.scopes.size, new.parent? env = old.parent? env
  names : ∀ env name, (old.bindings env).has name = true →
    (new.bindings env).has name = true
  fields : ∀ inst name, (old.fieldsOf inst).has name = true →
    (new.fieldsOf inst).has name = true

namespace Grows

variable {old middle new : Heap}

theorem refl (heap : Heap) : heap.Grows heap where
  size := Nat.le_refl _
  nextStamp := Nat.le_refl _
  parent _ _ := rfl
  names _ _ hbound := hbound
  fields _ _ hset := hset

theorem trans (h : old.Grows middle) (h' : middle.Grows new) : old.Grows new where
  size := Nat.le_trans h.size h'.size
  nextStamp := Nat.le_trans h.nextStamp h'.nextStamp
  parent env henv :=
    (h'.parent env (Nat.lt_of_lt_of_le henv h.size)).trans (h.parent env henv)
  names env name hbound := h'.names env name (h.names env name hbound)
  fields inst name hset := h'.fields inst name (h.fields inst name hset)

end Grows

/-- The parent is the second scope that is seen. -/
theorem parent?_eq_chain (heap : Heap) (env : ScopeId) :
    heap.parent? env = (heap.chain env).tail.head? := by
  unfold parent? chain
  cases heap.scopes[env]? <;> rfl

namespace Edits

variable {Writes : ScopeId → String → Prop} {old : Heap}

variable (h : Edits Writes old heap)

include h

theorem nextStamp_le : old.nextStamp ≤ heap.nextStamp := by
  induction h with
  | none => exact Nat.le_refl _
  | draw _ ih => exact Nat.le_succ_of_le ih
  | makeChild _ _ _ ih => exact ih
  | makeInstance _ _ ih => exact ih
  | define _ _ _ ih => exact ih
  | setField _ _ _ _ ih => exact ih

private theorem has_fieldsOf {inst : Instance} {name : String}
    (hset : (old.fieldsOf inst).has name = true) :
    (heap.fieldsOf inst).has name = true := by
  induction h with
  | none => exact hset
  | draw _ ih => exact ih
  | makeChild _ _ _ ih => exact ih
  | @makeInstance heap _ cls ih =>
    have hlt : inst.address < heap.fields.size := by
      refine Nat.lt_of_not_le fun hle => ?_
      simp [fieldsOf, Array.getElem?_eq_none hle, Table.has, Table.get?] at ih
    simp only [fieldsOf, Heap.makeInstance, Array.getElem?_push,
      Nat.ne_of_lt hlt, if_false]
    exact ih
  | define _ _ _ ih => exact ih
  | @setField heap _ other key value ih =>
    simp only [fieldsOf, Heap.setField, Array.getElem?_modify]
    split
    · rename_i haddress
      simp only [fieldsOf, ← haddress] at ih ⊢
      cases hfields : heap.fields[other.address]? with
      | none => simp [hfields, Table.has, Table.get?] at ih
      | some fields =>
        rw [hfields, Option.getD_some] at ih
        rw [Option.map_some, Option.getD_some]
        by_cases hkey : name = key
        · rw [hkey, Table.has, Table.get?_put_self]
          rfl
        · rw [Table.has, Table.get?_put_of_ne hkey]
          exact ih
    · exact ih

theorem grows : old.Grows heap where
  size := h.size_le
  nextStamp := h.nextStamp_le
  parent env henv := by rw [parent?_eq_chain, parent?_eq_chain, h.chain henv]
  names _ _ hbound := h.has_bindings hbound
  fields _ _ hset := h.has_fieldsOf hset

end Edits

end Treewalk.Heap
