import Treewalk.Proofs.Scope.Event

/-!
# Environments

An environment is a scope with the scopes around it, and many environments may share a
scope. What a chain of scopes is, is said here by parent links (`Heap.parent?`,
`Heap.climb?`): every operation on environments, wherever it starts, is about the scope
some links up. Names are looked up and assigned in the nearest scope that binds them, or
in the scope at an exact distance; where the nearest scope is that many links up, the
two are the same.

A write changes one slot, the name in one scope. It is seen from every environment whose
nearest binding of the name is this slot, and from no other one (`Heap.Rebinds`).

* `Heap.Chained` — the list of scopes that a scope keeps is what its parent links lead
  to, kept by all operations.
* `Heap.environments_agree` — the operations, over any heap that was built by them.
-/

namespace Treewalk.Heap

variable {distance : Nat}

/-! ## Parent links -/

/-- The scope right around a scope. -/
def parent? (heap : Heap) (env : ScopeId) : Option ScopeId :=
  heap.scopes[env]?.bind fun scope => scope.outer.head?

/-- The scope that many links up. -/
def climb? (heap : Heap) (env : ScopeId) : Nat → Option ScopeId
  | 0 => if env < heap.scopes.size then some env else none
  | distance + 1 => (heap.parent? env).bind fun parent => heap.climb? parent distance

/-- The scope that many links up binds the name. -/
structure BoundAt (heap : Heap) (env : ScopeId) (name : String) (distance : Nat)
    (scope : ScopeId) : Prop where
  climbs : heap.climb? env distance = some scope
  binds : (heap.bindings scope).has name = true

/-- The nearest scope that binds the name, and how many links up it is. -/
structure NearestAt (heap : Heap) (env : ScopeId) (name : String) (distance : Nat)
    (scope : ScopeId) : Prop where
  bound : heap.BoundAt env name distance scope
  least : ∀ other found, heap.BoundAt env name other found → distance ≤ other

/-- A scope keeps no scopes around it, or those that are seen from one that is there. -/
def Chained (heap : Heap) : Prop :=
  ∀ (env : ScopeId) (scope : Scope), heap.scopes[env]? = some scope →
    scope.outer = [] ∨ ∃ parent < heap.scopes.size, scope.outer = heap.chain parent

/-! ## Operations -/

/-- What can be done with environments. -/
inductive Operation where
  | make
  | makeChild (env : ScopeId)
  | define (env : ScopeId) (name : String) (value : Value)
  | assign (env : ScopeId) (name : String) (value : Value)
  | assignAt (env : ScopeId) (distance : Nat) (name : String) (value : Value)

/-- The heap after an operation. One that fails leaves the heap as it was. -/
def Operation.apply (heap : Heap) : Operation → Heap
  | make => (heap.makeScope [] []).2
  | makeChild env => (heap.makeChild env []).2
  | define env name value => heap.define env name value
  | assign env name value => (heap.assign? env name value).getD heap
  | assignAt env distance name value =>
    (heap.assignAt env distance name value).toOption.getD heap

/-- The heap that operations build from nothing. -/
def built (operations : List Operation) : Heap :=
  operations.foldl Operation.apply empty

section Chained

variable {heap : Heap} {env scope : ScopeId} {name : String}

theorem chain_of_getElem? {found : Scope} (h : heap.scopes[env]? = some found) :
    heap.chain env = env :: found.outer := by
  simp only [chain, h]

theorem lt_size_of_getElem? {found : Scope} (h : heap.scopes[env]? = some found) :
    env < heap.scopes.size := by
  obtain ⟨hlt, -⟩ := Array.getElem?_eq_some_iff.1 h
  exact hlt

theorem chained_empty : empty.Chained := by
  intro env scope h
  simp [empty] at h

variable (h : heap.Chained)

include h

private theorem Chained.makeScope {outer : List ScopeId} (table : Table Value)
    (houter : outer = [] ∨ ∃ parent < heap.scopes.size, outer = heap.chain parent) :
    (heap.makeScope outer table).2.Chained := by
  have hsize : (heap.makeScope outer table).2.scopes.size = heap.scopes.size + 1 := by
    simp [Heap.makeScope]
  -- A parent that was there is still there and sees the same scopes.
  have hkept : ∀ {chain : List ScopeId},
    (chain = [] ∨ ∃ parent < heap.scopes.size, chain = heap.chain parent) →
      chain = [] ∨ ∃ parent < (heap.makeScope outer table).2.scopes.size,
        chain = (heap.makeScope outer table).2.chain parent := by
    rintro chain (hnil | ⟨parent, hlt, hchain⟩)
    · exact .inl hnil
    · refine .inr ⟨parent, by omega, ?_⟩
      rw [hchain, chain_makeScope_of_lt hlt]
  intro env scope hscope
  simp only [Heap.makeScope, Array.getElem?_push] at hscope
  split at hscope
  · cases hscope
    exact hkept houter
  · exact hkept (h env scope hscope)

theorem Chained.makeChild (env : ScopeId) (table : Table Value) :
    (heap.makeChild env table).2.Chained := by
  refine h.makeScope table ?_
  by_cases hlt : env < heap.scopes.size
  · exact .inr ⟨env, hlt, rfl⟩
  · have hnone : heap.scopes[env]? = none :=
      Array.getElem?_eq_none (Nat.le_of_not_lt hlt)
    exact .inl (by simp only [chain, hnone])

theorem Chained.define (env : ScopeId) (name : String) (value : Value) :
    (heap.define env name value).Chained := by
  intro other scope hscope
  have hsize : (heap.define env name value).scopes.size = heap.scopes.size := by
    simp [Heap.define]
  obtain ⟨old, hold, houter⟩ : ∃ old, heap.scopes[other]? = some old ∧
    scope.outer = old.outer := by
    simp only [Heap.define, Array.getElem?_modify] at hscope
    split at hscope
    · obtain ⟨old, hold, rfl⟩ := Option.map_eq_some_iff.1 hscope
      exact ⟨old, hold, rfl⟩
    · exact ⟨scope, hscope, rfl⟩
  rw [houter, hsize]
  rcases h other old hold with hnil | ⟨parent, hlt, hchain⟩
  · exact .inl hnil
  · exact .inr ⟨parent, hlt, by rw [hchain, chain_define]⟩

private theorem Chained.apply (operation : Operation) :
    (operation.apply heap).Chained := by
  cases operation with
  | make => exact h.makeScope [] (.inl rfl)
  | makeChild env => exact h.makeChild env []
  | define env name value => exact h.define env name value
  | assign env name value =>
    simp only [Operation.apply, assign?]
    cases heap.owner? env name with
    | none => exact h
    | some scope => exact h.define scope name value
  | assignAt env distance name value =>
    simp only [Operation.apply, Heap.assignAt]
    cases heap.slotAt env distance name with
    | error cause => exact h
    | ok scope => exact h.define scope name value

omit h in
private theorem chained_built (operations : List Operation) :
    (built operations).Chained := by
  suffices hall : ∀ heap : Heap, heap.Chained →
    (operations.foldl Operation.apply heap).Chained from hall empty chained_empty
  induction operations with
  | nil => exact fun heap h => h
  | cons operation operations ih => exact fun heap h => ih _ (h.apply operation)

/-- The scopes that are seen are those that the links lead to. -/
private theorem Chained.climb?_eq (env : ScopeId) (distance : Nat) :
    heap.climb? env distance = (heap.chain env)[distance]? := by
  induction distance generalizing env with
  | zero =>
    unfold climb? chain
    cases hscope : heap.scopes[env]? with
    | none =>
      have hge := Array.getElem?_eq_none_iff.1 hscope
      simp [Nat.not_lt.2 hge]
    | some scope => simp [lt_size_of_getElem? hscope]
  | succ distance ih =>
    unfold climb? parent?
    cases hscope : heap.scopes[env]? with
    | none => simp [chain, hscope]
    | some scope =>
      rw [chain_of_getElem? hscope, List.getElem?_cons_succ, Option.bind_some]
      rcases h env scope hscope with hnil | ⟨parent, hlt, hchain⟩
      · simp [hnil]
      · have hhead : scope.outer.head? = some parent := by
          rw [hchain, chain, Array.getElem?_eq_getElem hlt]
          rfl
        rw [hhead, Option.bind_some, ih, hchain]

theorem Chained.boundAt_iff : heap.BoundAt env name distance scope ↔
      (heap.chain env)[distance]? = some scope ∧ (heap.bindings scope).has name =
        true := by
  constructor
  · rintro ⟨hclimb, hbinds⟩
    exact ⟨by rw [← h.climb?_eq, hclimb], hbinds⟩
  · rintro ⟨hchain, hbinds⟩
    exact ⟨by rw [h.climb?_eq, hchain], hbinds⟩

/-- The walk to the first scope that binds a name ends at the least distance. -/
private theorem Chained.owner?_eq_some_iff :
    heap.owner? env name = some scope ↔ ∃ distance, heap.NearestAt env name distance
      scope := by
  unfold owner?
  rw [List.find?_eq_some_iff_getElem]
  constructor
  · rintro ⟨hbinds, distance, hlt, hscope, hbefore⟩
    refine ⟨distance, ⟨h.boundAt_iff.2 ⟨?_, hbinds⟩, ?_⟩⟩
    · rw [List.getElem?_eq_getElem hlt, hscope]
    · intro other found hfound
      obtain ⟨hother, hhas⟩ := h.boundAt_iff.1 hfound
      obtain ⟨hotherLt, rfl⟩ := List.getElem?_eq_some_iff.1 hother
      refine Nat.le_of_not_lt fun hnearer => ?_
      have hfree := hbefore other hnearer
      simp [hhas] at hfree
  · rintro ⟨distance, hbound, hleast⟩
    obtain ⟨hchain, hbinds⟩ := h.boundAt_iff.1 hbound
    obtain ⟨hlt, hscope⟩ := List.getElem?_eq_some_iff.1 hchain
    refine ⟨hbinds, distance, hlt, hscope, ?_⟩
    intro other hother
    rw [Bool.not_eq_true', ← Bool.not_eq_true]
    intro hhas
    have hle :=
      hleast other _ (h.boundAt_iff.2 ⟨List.getElem?_eq_getElem (by omega), hhas⟩)
    omega

private theorem Chained.owner?_eq_none_iff :
    heap.owner? env name = none ↔ ∀ distance scope, ¬heap.BoundAt env name distance
      scope := by
  unfold owner?
  rw [List.find?_eq_none]
  constructor
  · intro hnone distance scope hbound
    obtain ⟨hchain, hbinds⟩ := h.boundAt_iff.1 hbound
    exact hnone scope (List.mem_of_getElem? hchain) hbinds
  · intro hnone scope hmem hbinds
    obtain ⟨distance, hchain⟩ := List.getElem?_of_mem hmem
    exact hnone distance scope (h.boundAt_iff.2 ⟨hchain, hbinds⟩)

private theorem Chained.ancestor_eq_ok_iff :
    heap.ancestor env distance = .ok scope ↔ heap.climb? env distance = some scope := by
  rw [h.climb?_eq]
  simp only [ancestor]
  cases (heap.chain env)[distance]? with
  | none => simp
  | some found => simp

end Chained

/-! ## Looking up -/

section Lookup

variable {heap : Heap} {env scope : ScopeId} {name : String}

private theorem has_iff_get? {table : Table Value} :
    table.has name = true ↔ ∃ value, table.get? name = some value := by
  rw [Table.has, Option.isSome_iff_exists]

/-- A lookup finds the value in the scope that an assignment would change. -/
theorem lookup?_eq_bind (heap : Heap) (env : ScopeId) (name : String) :
    heap.lookup? env name = (heap.owner? env name).bind fun scope =>
      (heap.bindings scope).get? name := by
  unfold lookup? owner?
  induction heap.chain env with
  | nil => rfl
  | cons scope rest ih =>
    rw [List.findSome?_cons, List.find?_cons]
    cases hget : (heap.bindings scope).get? name with
    | none =>
      have hhas : (heap.bindings scope).has name = false := by simp [Table.has, hget]
      simp only [hhas]
      exact ih
    | some value =>
      have hhas : (heap.bindings scope).has name = true := by simp [Table.has, hget]
      simp [hhas, hget]

/-- Reading and writing at a distance find the same slot, or fail for the same cause. -/
private theorem slotAt_cases (heap : Heap) (env : ScopeId) (distance : Nat)
    (name : String) :
    (∃ scope value, heap.ancestor env distance = .ok scope ∧
      (heap.bindings scope).get? name = some value ∧ heap.slotAt env distance name =
      .ok scope ∧ heap.getAt env distance name = .ok value) ∨
    ∃ cause, heap.slotAt env distance name = .error cause ∧
      heap.getAt env distance name = .error cause := by
  unfold slotAt getAt
  cases heap.ancestor env distance with
  | error left => exact .inr ⟨_, rfl, rfl⟩
  | ok scope =>
    cases hget : (heap.bindings scope).get? name with
    | none =>
      exact .inr ⟨.undefinedVariable name [], by simp [Table.has, hget], by simp [hget]⟩
    | some value =>
      exact .inl ⟨scope, value, rfl, hget, by simp [Table.has, hget], by simp [hget]⟩

end Lookup

/-! ## One slot is written -/

/-- All that a write to one slot does: it is seen wherever this slot is the nearest of
its name, and nothing else is different. -/
structure Rebinds (old new : Heap) (scope : ScopeId) (name : String) (value : Value) :
  Prop where
  slots : ∀ other key, (new.bindings other).get? key =
    if other = scope ∧ key = name then some value else (old.bindings other).get? key
  names : ∀ other, (new.bindings other).names = (old.bindings other).names
  size : new.scopes.size = old.scopes.size
  parent : ∀ other, new.parent? other = old.parent? other
  fields : new.fields = old.fields
  nextStamp : new.nextStamp = old.nextStamp
  seen : ∀ other distance, old.NearestAt other name distance scope →
    new.lookup? other name = some value
  unseen : ∀ other key,
    ¬(key = name ∧ ∃ distance, old.NearestAt other key distance scope) →
    new.lookup? other key = old.lookup? other key
  getAt : ∀ other distance key, ¬(key = name ∧ old.climb? other distance = some scope) →
    new.getAt other distance key = old.getAt other distance key

section Define

variable {heap : Heap} {scope : ScopeId} {name : String} (value : Value)

theorem lt_size_of_has (h : (heap.bindings scope).has name = true) :
    scope < heap.scopes.size := by
  obtain ⟨found, hfound⟩ := has_iff_get?.1 h
  exact lt_size_of_get? hfound

/-- A name that is bound is bound anew, and no other slot changes. -/
private theorem get?_define (h : scope < heap.scopes.size) (other : ScopeId)
    (key : String) :
    ((heap.define scope name value).bindings other).get? key =
      if other = scope ∧ key = name then some value
      else (heap.bindings other).get? key := by
  by_cases hother : other = scope
  · subst hother
    rw [bindings_define_self h]
    by_cases hkey : key = name
    · simp [hkey]
    · simp [hkey]
  · rw [bindings_define_of_ne hother]
    simp [hother]

private theorem names_define (h : (heap.bindings scope).has name = true)
    (other : ScopeId) :
    ((heap.define scope name value).bindings other).names =
      (heap.bindings other).names := by
  by_cases hother : other = scope
  · subst hother
    rw [bindings_define_self (lt_size_of_has h)]
    exact Table.names_put_of_get? value h
  · rw [bindings_define_of_ne hother]

private theorem has_define_of_has (h : (heap.bindings scope).has name = true)
    (other : ScopeId) (key : String) :
    ((heap.define scope name value).bindings other).has key =
      (heap.bindings other).has key := by
  unfold Table.has
  rw [get?_define value (lt_size_of_has h)]
  by_cases hslot : other = scope ∧ key = name
  · obtain ⟨rfl, rfl⟩ := hslot
    simpa [Table.has] using h.symm
  · rw [if_neg hslot]

theorem parent?_define (other : ScopeId) :
    (heap.define scope name value).parent? other = heap.parent? other := by
  simp only [parent?, define, Array.getElem?_modify]
  by_cases h : scope = other
  · cases heap.scopes[other]? <;> simp [h]
  · simp [h]

private theorem owner?_define (h : (heap.bindings scope).has name = true)
    (env : ScopeId) (key : String) :
    (heap.define scope name value).owner? env key = heap.owner? env key := by
  simp only [owner?, chain_define, has_define_of_has value h]

private theorem Chained.rebinds_define (hchained : heap.Chained)
    (h : (heap.bindings scope).has name = true) :
    heap.Rebinds (heap.define scope name value) scope name value where
  slots := get?_define value (lt_size_of_has h)
  names := names_define value h
  size := by simp [Heap.define]
  parent := parent?_define value
  fields := rfl
  nextStamp := rfl
  seen other distance hnearest := by
    have howner := hchained.owner?_eq_some_iff.2 ⟨distance, hnearest⟩
    rw [lookup?_eq_bind, owner?_define value h, howner, Option.bind_some,
      get?_define value (lt_size_of_has h), if_pos ⟨rfl, rfl⟩]
  unseen other key hnot := by
    rw [lookup?_eq_bind, lookup?_eq_bind, owner?_define value h]
    cases howner : heap.owner? other key with
    | none => rfl
    | some found =>
      have hslot : ¬(found = scope ∧ key = name) := by
        rintro ⟨rfl, hkey⟩
        exact hnot ⟨hkey, hchained.owner?_eq_some_iff.1 howner⟩
      rw [Option.bind_some, Option.bind_some, get?_define value (lt_size_of_has h),
        if_neg hslot]
  getAt other distance key hnot := by
    have hancestor : (heap.define scope name value).ancestor other distance =
        heap.ancestor other distance := by
      simp only [ancestor, chain_define]
    unfold Heap.getAt
    rw [hancestor]
    cases hfound : heap.ancestor other distance with
    | error left => rfl
    | ok found =>
      have hslot : ¬(found = scope ∧ key = name) := by
        rintro ⟨rfl, hkey⟩
        exact hnot ⟨hkey, hchained.ancestor_eq_ok_iff.1 hfound⟩
      simp only [get?_define value (lt_size_of_has h), if_neg hslot]

end Define

/-! ## Agreement -/

section Agreement

variable {heap : Heap} {env : ScopeId} {name : String} (value : Value)

/-- At the least distance, what takes the nearest binding and what takes an exact
distance do the same. -/
private theorem Chained.agree_of_nearestAt (h : heap.Chained) {scope : ScopeId}
    (hnearest : heap.NearestAt env name distance scope) :
    (∃ found, heap.lookup? env name = some found ∧
      heap.getAt env distance name = .ok found) ∧ ∃ new, heap.assign? env name value =
      some new ∧ heap.assignAt env distance name value = .ok new ∧
        heap.Rebinds new scope name value := by
  have hbinds := hnearest.bound.binds
  have howner := h.owner?_eq_some_iff.2 ⟨distance, hnearest⟩
  have hancestor := h.ancestor_eq_ok_iff.2 hnearest.bound.climbs
  obtain ⟨found, hfound⟩ := has_iff_get?.1 hbinds
  refine ⟨⟨found, ?_, ?_⟩, heap.define scope name value, ?_, ?_,
    h.rebinds_define value hbinds⟩
  · rw [lookup?_eq_bind, howner, Option.bind_some, hfound]
  · simp only [getAt, hancestor, hfound]
  · rw [assign?, howner, Option.map_some]
  · simp only [assignAt, slotAt, hancestor, hbinds, if_true, Except.map]

private theorem Chained.agree_of_unbound (h : heap.Chained)
    (hnone : ∀ distance scope, ¬heap.BoundAt env name distance scope) :
    heap.lookup? env name = none ∧ heap.assign? env name value = none := by
  have howner := h.owner?_eq_none_iff.2 hnone
  exact ⟨by rw [lookup?_eq_bind, howner, Option.bind_none], by rw [assign?, howner,
    Option.map_none]⟩

/-- A write at a distance replaces the value that a read there finds, or fails as the
read does. -/
private theorem Chained.assignAt_cases (h : heap.Chained) (distance : Nat) :
    (∃ scope found new, heap.climb? env distance = some scope ∧
      heap.getAt env distance name = .ok found ∧ heap.assignAt env distance name value =
      .ok new ∧ heap.Rebinds new scope name value) ∨
    ∃ cause, heap.getAt env distance name = .error cause ∧
      heap.assignAt env distance name value = .error cause := by
  rcases heap.slotAt_cases env distance name with
    ⟨scope, found, hancestor, hfound, hslot, hget⟩ | ⟨cause, hslot, hget⟩
  · refine .inl ⟨scope, found, heap.define scope name value,
      h.ancestor_eq_ok_iff.1 hancestor, hget, ?_, ?_⟩
    · simp only [assignAt, hslot, Except.map]
    · exact h.rebinds_define value (has_iff_get?.2 ⟨found, hfound⟩)
  · exact .inr ⟨cause, hget, by simp only [assignAt, hslot, Except.map]⟩

end Agreement

/-- Environments that were built in any way, with any scopes shared. Where a name is
bound, the nearest binding is read and written as the slot at its exact distance, and
one write is seen from everywhere the slot is the nearest, and changes no other slot and
no other lookup. Where it is not bound, nothing is found and nothing changes. A write at
an exact distance succeeds where a read does and fails with the cause with which the
read fails, changes nothing when it fails, and adds no binding. -/
theorem environments_agree (operations : List Operation) (env : ScopeId) (name : String)
    (value : Value) :
    (∀ distance scope, (built operations).NearestAt env name distance scope →
      (∃ found, (built operations).lookup? env name = some found ∧
        (built operations).getAt env distance name = .ok found) ∧
      ∃ new, (built operations).assign? env name value = some new ∧
        (built operations).assignAt env distance name value = .ok new ∧
        (built operations).Rebinds new scope name value) ∧
    ((∀ distance scope, ¬(built operations).BoundAt env name distance scope) →
      (built operations).lookup? env name = none ∧
        (built operations).assign? env name value = none ∧
        built (operations ++ [.assign env name value]) = built operations) ∧
    ∀ distance,
      (∃ scope found new, (built operations).climb? env distance = some scope ∧
        (built operations).getAt env distance name = .ok found ∧
        (built operations).assignAt env distance name value = .ok new ∧
        (built operations).Rebinds new scope name value) ∨
      ∃ cause, (built operations).getAt env distance name = .error cause ∧
        (built operations).assignAt env distance name value = .error cause ∧
        built (operations ++ [.assignAt env distance name value]) =
          built operations := by
  have hchained := chained_built operations
  have hlast : ∀ operation : Operation,
      built (operations ++ [operation]) = operation.apply (built operations) := by
    intro operation
    simp [built]
  refine ⟨fun distance scope => hchained.agree_of_nearestAt value, ?_, ?_⟩
  · intro hnone
    obtain ⟨hlookup, hassign⟩ := hchained.agree_of_unbound value hnone
    refine ⟨hlookup, hassign, ?_⟩
    rw [hlast, Operation.apply, hassign, Option.getD_none]
  · intro distance
    rcases hchained.assignAt_cases value distance with hok | ⟨cause, hget, hassign⟩
    · exact .inl hok
    · refine .inr ⟨cause, hget, hassign, ?_⟩
      rw [hlast, Operation.apply, hassign]
      rfl

/-- Two scopes inside one scope that binds a name, of which one binds it anew, and a
scope inside that one. -/
def twoBranches : List Operation :=
  [.make, .define 0 "n" (.number 1), .makeChild 0, .makeChild 0, .makeChild 1,
    .define 1 "n" (.number 2)]

/-- An assignment from the innermost scope is seen in the scope around it and not in the
other branch, and a name that only the innermost scope binds is not there one link
up. -/
theorem twoBranches_agree :
    (built twoBranches).NearestAt 3 "n" 1 1 ∧
      (∃ new, (built twoBranches).assign? 3 "n" .nothing = some new ∧
        (built twoBranches).assignAt 3 1 "n" .nothing = .ok new ∧
        new.lookup? 1 "n" = some .nothing ∧ new.lookup? 2 "n" = some (.number 1)) ∧
      (built twoBranches).assign? 2 "m" .nothing = none := by
  have hthree : (built twoBranches).NearestAt 3 "n" 1 1 := by
    refine ⟨⟨rfl, rfl⟩, ?_⟩
    intro other found hbound
    refine Nat.pos_of_ne_zero ?_
    rintro rfl
    cases hbound.climbs
    cases hbound.binds
  have hone : (built twoBranches).NearestAt 1 "n" 0 1 :=
    ⟨⟨rfl, rfl⟩, fun other found hbound => Nat.zero_le other⟩
  have htwo :
      ¬("n" = "n" ∧ ∃ distance, (built twoBranches).NearestAt 2 "n" distance 1) := by
    rintro ⟨-, distance, hnearest⟩
    have howner := (chained_built twoBranches).owner?_eq_some_iff.2 ⟨distance, hnearest⟩
    cases howner
  obtain ⟨-, new, hassign, hassignAt, hrebinds⟩ :=
    (environments_agree twoBranches 3 "n" .nothing).1 1 1 hthree
  refine ⟨hthree, ⟨new, hassign, hassignAt, hrebinds.seen 1 0 hone, ?_⟩, ?_⟩
  · rw [hrebinds.unseen 2 "n" htwo]
    rfl
  · refine ((environments_agree twoBranches 2 "m" .nothing).2.1 ?_).2.1
    exact (chained_built twoBranches).owner?_eq_none_iff.1 rfl

end Treewalk.Heap
