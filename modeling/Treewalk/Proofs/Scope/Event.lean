import Treewalk.Proofs.Scope.Standing

/-!
# What a transition does to scopes, frames and activations

Most of what a transition does leaves the bindings of the scopes alone
(`Heap.Untouched`); a declaration sets one binding (`Heap.Sets`). An `Event` is one
thing that can happen to the heap, the frames and the activations together: a block is
opened or left, a name is declared or assigned, a call is begun, given its arguments,
entered or left. Every transition is a sequence of events (`Path`), so an invariant
about frames and scopes need only be kept by each kind of event.
-/

namespace Treewalk

variable {heap : Heap}

/-! ## Changes of the heap -/

namespace Heap

variable {scope : ScopeId}

/-- What was bound before is bound as before, and what was seen before is seen as
before. -/
structure Untouched (old new : Heap) : Prop where
  size : old.scopes.size ≤ new.scopes.size
  chain : ∀ env, old.chain env ≠ [] → new.chain env = old.chain env
  bindings : ∀ scope < old.scopes.size, new.bindings scope = old.bindings scope

/-- One binding is set, and everything else is as before. -/
structure Sets (old new : Heap) (env : ScopeId) (name : String) (value : Value) :
  Prop where
  size : old.scopes.size ≤ new.scopes.size
  chain : ∀ env, old.chain env ≠ [] → new.chain env = old.chain env
  self : (new.bindings env).get? name = some value
  other : ∀ scope < old.scopes.size, ∀ other, ¬(scope = env ∧ other = name) →
    (new.bindings scope).get? other = (old.bindings scope).get? other

theorem lt_size_of_chain {env : ScopeId} (h : heap.chain env ≠ []) :
    env < heap.scopes.size := by
  by_cases hlt : env < heap.scopes.size
  · exact hlt
  · have hnone : heap.scopes[env]? = none :=
      Array.getElem?_eq_none (Nat.le_of_not_lt hlt)
    simp [chain, hnone] at h

theorem lt_size_of_get? {name : String} {value : Value}
    (h : (heap.bindings scope).get? name = some value) :
    scope < heap.scopes.size := by
  by_cases hlt : scope < heap.scopes.size
  · exact hlt
  · have hnone : heap.scopes[scope]? = none :=
      Array.getElem?_eq_none (Nat.le_of_not_lt hlt)
    simp [bindings, hnone, Table.get?] at h

theorem binds_iff {name : String} :
    heap.Binds scope name ↔ ∃ value, (heap.bindings scope).get? name = some value := by
  rw [Binds, Table.has, Option.isSome_iff_exists]

theorem bindings_makeScope_self (heap : Heap) (outer : List ScopeId)
    (table : Table Value) :
    (heap.makeScope outer table).2.bindings heap.scopes.size = table := by
  simp [bindings, makeScope]

theorem bindings_makeScope_of_ne (h : scope ≠ heap.scopes.size) (outer : List ScopeId)
    (table : Table Value) :
    (heap.makeScope outer table).2.bindings scope = heap.bindings scope := by
  simp [bindings, makeScope, Array.getElem?_push, h]

namespace Untouched

variable {a b c : Heap}

theorem of_scopes_eq (h : b.scopes = a.scopes) : a.Untouched b where
  size := Nat.le_of_eq (congrArg Array.size h).symm
  chain env _ := by simp only [Heap.chain, h]
  bindings scope _ := by simp only [Heap.bindings, h]

theorem trans (h : a.Untouched b) (h' : b.Untouched c) : a.Untouched c where
  size := Nat.le_trans h.size h'.size
  chain env hne := by
    have hab := h.chain env hne
    rw [h'.chain env (hab ▸ hne), hab]
  bindings scope hlt := by
    rw [h'.bindings scope (Nat.lt_of_lt_of_le hlt h.size), h.bindings scope hlt]

theorem makeScope (heap : Heap) (outer : List ScopeId) (table : Table Value) :
    heap.Untouched (heap.makeScope outer table).2 where
  size := by simp [Heap.makeScope]
  chain env hne := chain_makeScope_of_lt (lt_size_of_chain hne) outer table
  bindings scope hlt := bindings_makeScope_of_ne (Nat.ne_of_lt hlt) outer table

theorem same (h : a.Untouched b) (origins : List Origin) :
    History.Extends ⟨a, origins⟩ ⟨b, origins⟩ where
  chain := h.chain
  binds scope name hbinds := by
    obtain ⟨value, hvalue⟩ := binds_iff.1 hbinds
    refine binds_iff.2 ⟨value, ?_⟩
    rw [h.bindings scope (lt_size_of_get? hvalue), hvalue]
  origin _ _ horigin := horigin

/-- With the origins of the new scopes, nothing that was seen is lost. -/
theorem extension (h : a.Untouched b) (origins more : List Origin) :
    History.Extends ⟨a, origins⟩ ⟨b, origins ++ more⟩ :=
  (h.same origins).append more

end Untouched

namespace Sets

variable {a b c : Heap} {env : ScopeId} {name : String} {value old : Value}

theorem define {heap : Heap} (h : env < heap.scopes.size) (name : String)
    (value : Value) :
    heap.Sets (heap.define env name value) env name value where
  size := by simp [Heap.define]
  chain other _ := chain_define heap env name value other
  self := by rw [bindings_define_self h, Table.get?_put_self]
  other scope _ other hne := by
    by_cases hscope : scope = env
    · subst hscope
      have hother : other ≠ name := fun hsame => hne ⟨rfl, hsame⟩
      rw [bindings_define_self h, Table.get?_put_of_ne hother]
    · rw [bindings_define_of_ne hscope]

theorem after (h : b.Sets c env name value) (h' : a.Untouched b) :
    a.Sets c env name value where
  size := Nat.le_trans h'.size h.size
  chain other hne := by
    have hab := h'.chain other hne
    rw [h.chain other (hab ▸ hne), hab]
  self := h.self
  other scope hlt other hne := by
    rw [h.other scope (Nat.lt_of_lt_of_le hlt h'.size) other hne, h'.bindings scope hlt]

/-- Of two settings of one binding the later one stays. -/
theorem again (h : b.Sets c env name value) (h' : a.Sets b env name old) :
    a.Sets c env name value where
  size := Nat.le_trans h'.size h.size
  chain other hne := by
    have hab := h'.chain other hne
    rw [h.chain other (hab ▸ hne), hab]
  self := h.self
  other scope hlt other hne := by
    rw [h.other scope (Nat.lt_of_lt_of_le hlt h'.size) other hne,
      h'.other scope hlt other hne]

theorem binds (h : a.Sets b env name value) : b.Binds env name :=
  binds_iff.2 ⟨value, h.self⟩

theorem extension (h : a.Sets b env name value) (origins : List Origin) :
    History.Extends ⟨a, origins⟩ ⟨b, origins⟩ where
  chain := h.chain
  binds scope other hbinds := by
    obtain ⟨found, hfound⟩ := binds_iff.1 hbinds
    by_cases hsame : scope = env ∧ other = name
    · obtain ⟨rfl, rfl⟩ := hsame
      exact h.binds
    · refine binds_iff.2 ⟨found, ?_⟩
      rw [h.other scope (lt_size_of_get? hfound) other hsame, hfound]
  origin _ _ horigin := horigin

end Sets

@[simp] theorem scopes_makeInstance (heap : Heap) (cls : Class) :
    (heap.makeInstance cls).2.scopes = heap.scopes :=
  rfl

@[simp] theorem scopes_setField (heap : Heap) (inst : Instance) (name : String)
    (value : Value) :
    (heap.setField inst name value).scopes = heap.scopes :=
  rfl

end Heap

/-! ## Events -/

/-- What frames and activations a run has at one time, over which heap. -/
structure Scene where
  heap : Heap
  frames : Frames
  acts : List Act

/-- The environment of an activation has one scope for each region around it and then
the global scope; what the regions name is declared in the program. -/
structure Seated (plan : List Site) (heap : Heap) (act : Act) : Prop where
  length : (heap.chain act.env).length = act.regions.length + 1
  last : (heap.chain act.env)[act.regions.length]? = some globalScope
  made : ∀ scope ∈ heap.chain act.env, scope < heap.scopes.size
  declared : Declared plan act.regions

private theorem Fits.last {log : History} {regions : Regions} {chain : List ScopeId}
    (h : Fits log regions chain) : chain[regions.length]? = some globalScope := by
  induction regions generalizing chain with
  | nil =>
    rw [Fits] at h
    simp [h]
  | cons region outer ih =>
    cases chain with
    | nil => exact h.elim
    | cons scope chain => simpa using ih h.2.2

/-- Every scope of the chain has an origin. -/
theorem Fits.origin {log : History} {regions : Regions} {chain : List ScopeId}
    (h : Fits log regions chain)
    (hglobals : log.origins[globalScope]? = some .globals) :
    ∀ scope ∈ chain, scope < log.origins.length := by
  induction regions generalizing chain with
  | nil =>
    rw [Fits] at h
    subst h
    intro scope hscope
    rw [List.mem_singleton.1 hscope]
    exact (List.getElem?_eq_some_iff.1 hglobals).1
  | cons region outer ih =>
    cases chain with
    | nil => exact h.elim
    | cons first chain =>
      intro scope hscope
      rcases List.mem_cons.1 hscope with rfl | hscope
      · exact (List.getElem?_eq_some_iff.1 h.1).1
      · exact ih h.2.2 scope hscope

theorem Place.seated {plan : List Site} {origins : List Origin} {act : Act}
    (h : Place plan ⟨heap, origins⟩ act.env act.regions)
    (hsize : origins.length = heap.scopes.size)
    (hglobals : origins[globalScope]? = some .globals) : Seated plan heap act where
  length := h.fits.length_eq
  last := h.fits.last
  made scope hscope := by
    rw [← hsize]
    exact h.fits.origin hglobals scope hscope
  declared := h.declared

/-- The scope that an assignment under an activation changes, or none where there is no
such name. -/
def AssignedAt (heap : Heap) (act : Act) (name : String) : Option ScopeId → Prop
  | some scope =>
    (∃ d, act.regions.distance? name = some d ∧ (heap.chain act.env)[d]? = some scope) ∨
      act.regions.distance? name = none ∧ scope = globalScope
  | none => act.regions.distance? name = none ∧ ¬heap.Binds globalScope name

/-- One thing that a transition does. -/
inductive Event (plan : List Site) (discipline : Discipline) : Scene → Scene → Prop
  /-- The bindings, the frames and the activations stay. -/
  | quiet {heap heap' frames acts} : heap.Untouched heap' →
      Event plan discipline ⟨heap, frames, acts⟩ ⟨heap', frames, acts⟩
  | openBlock {heap heap' frames env inner regions acts span body} :
      heap.Untouched heap' → heap.scopes.size ≤ inner → heap'.Inside inner env →
      Event plan discipline ⟨heap, frames, ⟨env, regions, false⟩ :: acts⟩
        ⟨heap', frames, ⟨inner, ⟨.block span body, []⟩ :: regions, false⟩ :: acts⟩
  | closeBlock {heap frames env outer regions acts span body names} :
      heap.Inside env outer →
      Event plan discipline
      ⟨heap, frames, ⟨env, ⟨.block span body, names⟩ :: regions, false⟩ :: acts⟩
        ⟨heap, frames, ⟨outer, regions, false⟩ :: acts⟩
  /-- A variable or class is declared in its scope and in the top frame. -/
  | declare {heap heap' frames env regions acts binder name value} :
      binder = .var ∨ binder = .cls → ⟨.declare binder name, regions, false⟩ ∈ plan →
      heap.Sets heap' env name value →
      Event plan discipline ⟨heap, frames, ⟨env, regions, false⟩ :: acts⟩
        ⟨heap', frames.add name value, ⟨env, regions.declare [name], false⟩ :: acts⟩
  /-- A function is declared in its scope alone. -/
  | function {heap heap' frames env regions acts name value} :
      ⟨.declare .function name, regions, false⟩ ∈ plan →
        heap.Sets heap' env name value →
      Event plan discipline ⟨heap, frames, ⟨env, regions, false⟩ :: acts⟩
        ⟨heap', frames, ⟨env, regions.declare [name], false⟩ :: acts⟩
  | assign {heap frames act acts id name value scope} {frame : Bool} :
      ⟨.write id name, act.regions, act.inArguments⟩ ∈ plan →
        AssignedAt heap act name scope →
      (discipline = .frames → frame = (frames.get? name).isSome) →
      Event plan discipline ⟨heap, frames, act :: acts⟩
        ⟨scope.elim heap fun scope => heap.define scope name value,
          if frame then frames.add name value else frames, act :: acts⟩
  /-- A call begins: its arguments are evaluated under its frame. -/
  | call {heap frames name env regions inArguments acts} :
      Event plan discipline ⟨heap, frames, ⟨env, regions, inArguments⟩ :: acts⟩
        ⟨heap, frames.push name,
          ⟨env, regions, true⟩ :: ⟨env, regions, inArguments⟩ :: acts⟩
  /-- The arguments that are plain variables go into the frame. -/
  | arguments {heap frames acts args} : Called plan (args.map (·.1)) →
      Event plan discipline ⟨heap, frames, acts⟩
        ⟨heap, frames.addAll (Machine.namedArguments args), acts⟩
  /-- The body of a function is entered. -/
  | body {heap heap' frames env inner regions regions' decl names acts} :
      heap.Untouched heap' → heap.scopes.size ≤ inner →
      Seated plan heap' ⟨inner, ⟨.call decl, names⟩ :: regions', false⟩ →
      Event plan discipline ⟨heap, frames, ⟨env, regions, true⟩ :: acts⟩
        ⟨heap', frames, ⟨inner, ⟨.call decl, names⟩ :: regions', false⟩ :: acts⟩
  | leave {heap frames act acts} :
      Event plan discipline ⟨heap, frames, act :: acts⟩ ⟨heap, frames.pop, acts⟩

/-- Events one after the other. -/
inductive Path (plan : List Site) (discipline : Discipline) : Scene → Scene → Prop
  | refl {scene} : Path plan discipline scene scene
  | tail {first scene last} : Path plan discipline first scene →
      Event plan discipline scene last → Path plan discipline first last

namespace Path

variable {plan : List Site} {discipline : Discipline} {a b c : Scene}

theorem single (h : Event plan discipline a b) : Path plan discipline a b :=
  .tail .refl h

theorem trans (h : Path plan discipline a b) (h' : Path plan discipline b c) :
    Path plan discipline a c := by
  induction h' with
  | refl => exact h
  | tail _ hevent ih => exact .tail ih hevent

end Path

end Treewalk
