import Treewalk.Proofs.Heap.Links
import Treewalk.Proofs.Machine.Supply
import Treewalk.Proofs.Scope.Layout

/-!
# The classes that a state holds

A value may be a class, a class that was wrapped as a callable, or an instance of a
class. Only class declarations make classes (`Machine.Makes`); all else in a transition
hands on values that are there, or makes values of no class (`Content.closed_of`). So
every class of a state was there before or was made by the transition to it:
`Machine.among_of_step`.
-/

namespace Treewalk

open List

variable {cls : Class} {contents : List Content}

/-! ## Superclass links -/

namespace Class

variable {cls : Class} {name : String}

/-- The class that many superclass links up. -/
def ascend? (cls : Class) : Nat → Option Class
  | 0 => some cls
  | distance + 1 => cls.superclass?.bind fun superclass => superclass.ascend? distance

/-- Superclass links lead to classes that were made earlier, so that walks along them
end; and a method is that of the nearest class that declares it. -/
structure Founded (cls : Class) : Prop where
  earlier : ∀ superclass, cls.superclass? = some superclass →
    superclass.stamp < cls.stamp
  ends : ∀ distance, cls.stamp < distance → cls.ascend? distance = none
  nearest : ∀ name method, cls.findMethod? name = some method ↔
    ∃ distance owner, cls.ascend? distance = some owner ∧
      owner.methods.get? name = some method ∧ ∀ nearer < distance, ∀ other,
      cls.ascend? nearer = some other → other.methods.get? name = none
  missing : ∀ name, cls.findMethod? name = none ↔
    ∀ distance owner, cls.ascend? distance = some owner → owner.methods.get? name = none

private theorem lineage_getElem? :
    ∀ (cls : Class) (distance : Nat), cls.lineage[distance]? = cls.ascend? distance
  | .mk _ _ none _, 0 => rfl
  | .mk _ _ none _, _ + 1 => rfl
  | .mk _ _ (some _) _, 0 => rfl
  | .mk _ _ (some superclass) _, distance + 1 => lineage_getElem? superclass distance

private theorem findMethod?_eq_findSome? (name : String) : ∀ cls : Class,
    cls.findMethod? name = cls.lineage.findSome? fun owner => owner.methods.get? name
  | .mk _ _ none methods => by
    rw [findMethod?, lineage, List.findSome?_cons, Class.methods]
    cases methods.get? name <;> rfl
  | .mk _ _ (some superclass) methods => by
    rw [findMethod?, lineage, List.findSome?_cons, Class.methods,
      findMethod?_eq_findSome? name superclass]
    cases methods.get? name <;> rfl

private theorem findMethod?_eq_some_iff {method : Function} :
    cls.findMethod? name = some method ↔
    ∃ distance owner, cls.ascend? distance = some owner ∧
      owner.methods.get? name = some method ∧ ∀ nearer < distance, ∀ other,
      cls.ascend? nearer = some other → other.methods.get? name = none := by
  rw [findMethod?_eq_findSome?, List.findSome?_eq_some_iff]
  constructor
  · rintro ⟨before, owner, after, hlineage, hmethod, hbefore⟩
    refine ⟨before.length, owner, ?_, hmethod, ?_⟩
    · rw [← lineage_getElem?, hlineage, List.getElem?_append_right (Nat.le_refl _),
        Nat.sub_self]
      rfl
    · intro nearer hnearer other hother
      rw [← lineage_getElem?, hlineage, List.getElem?_append_left hnearer] at hother
      exact hbefore other (mem_of_getElem? hother)
  · rintro ⟨distance, owner, howner, hmethod, hbefore⟩
    rw [← lineage_getElem?] at howner
    obtain ⟨hlt, rfl⟩ := List.getElem?_eq_some_iff.1 howner
    refine ⟨cls.lineage.take distance, _, cls.lineage.drop (distance + 1), ?_,
      hmethod, ?_⟩
    · rw [← drop_eq_getElem_cons hlt, take_append_drop]
    · intro other hother
      obtain ⟨nearer, hnearer, rfl⟩ := mem_take_iff_getElem.1 hother
      refine hbefore nearer (by omega) _ ?_
      rw [← lineage_getElem?, List.getElem?_eq_getElem]

private theorem findMethod?_eq_none_iff : cls.findMethod? name = none ↔
    ∀ distance owner, cls.ascend? distance = some owner →
      owner.methods.get? name = none := by
  rw [findMethod?_eq_findSome?, List.findSome?_eq_none_iff]
  constructor
  · intro hnone distance owner howner
    rw [← lineage_getElem?] at howner
    exact hnone owner (mem_of_getElem? howner)
  · intro hnone owner hmem
    obtain ⟨distance, hdistance⟩ := List.getElem?_of_mem hmem
    exact hnone distance owner (lineage_getElem? cls distance ▸ hdistance)

private theorem ascend?_eq_none
    (hearlier : ∀ ancestor ∈ cls.lineage, ∀ superclass,
      ancestor.superclass? = some superclass → superclass.stamp < ancestor.stamp)
    {distance : Nat} (hlt : cls.stamp < distance) : cls.ascend? distance = none := by
  induction distance generalizing cls with
  | zero => exact absurd hlt (Nat.not_lt_zero _)
  | succ distance ih =>
    rw [ascend?]
    cases hsuper : cls.superclass? with
    | none => rfl
    | some superclass =>
      have hstamp := hearlier cls cls.self_mem_lineage superclass hsuper
      refine ih (fun ancestor hmem => hearlier ancestor (lineage_subset hsuper hmem)) ?_
      omega

theorem founded
    (hearlier : ∀ ancestor ∈ cls.lineage, ∀ superclass,
      ancestor.superclass? = some superclass → superclass.stamp < ancestor.stamp) :
    cls.Founded where
  earlier := hearlier cls cls.self_mem_lineage
  ends _ hlt := ascend?_eq_none hearlier hlt
  nearest _ _ := findMethod?_eq_some_iff
  missing _ := findMethod?_eq_none_iff

end Class

/-! ## Classes of values -/

/-- The class that a value is, wraps or is an instance of. -/
def Value.class? : Value → Option Class
  | .callable (.cls made) => some made
  | .cls made => some made
  | .inst made => some made.cls
  | _ => none

/-- The class of the value has the property, if there is one. -/
def Value.Of (Q : Class → Prop) (value : Value) : Prop :=
  ∀ cls, value.class? = some cls → Q cls

/-- The class is that of a value among the contents, or one that such a class inherits
from. -/
def Class.Among (cls : Class) (contents : List Content) : Prop :=
  ∃ value top, .value value ∈ contents ∧ value.class? = some top ∧ cls ∈ top.lineage

theorem Class.Among.ancestor {other : Class} (h : cls.Among contents)
    (hother : other ∈ cls.lineage) :
    other.Among contents := by
  obtain ⟨value, top, hmem, htop, hlineage⟩ := h
  exact ⟨value, top, hmem, htop, lineage_subset_of_mem hlineage hother⟩

/-- The class of the value that is held has the property, if there is one. -/
def Content.Of (Q : Class → Prop) : Content → Prop
  | .value held => held.Of Q
  | _ => True

variable {Q : Class → Prop}

private theorem Value.of_class?_eq_none {value : Value} (h : value.class? = none) :
    value.Of Q := by
  intro cls hcls
  rw [h] at hcls
  cases hcls

private theorem Value.of_isComparable {value : Value} (h : value.isComparable = true) :
    value.Of Q := by
  refine of_class?_eq_none ?_
  cases value with
  | callable _ => cases h
  | cls _ => cases h
  | inst _ => cases h
  | _ => rfl

theorem Value.of_function (function : Function) :
    Value.Of Q (.callable (.function function)) :=
  of_class?_eq_none rfl

private theorem Value.of_cls (h : Q cls) : Value.Of Q (.cls cls) := by
  intro other hother
  cases hother
  exact h

/-- Classes come in by declarations only. -/
theorem Content.closed_of (ctx : Context) :
    Content.Closed (Content.Of Q) 0
      (fun world env decl superclass =>
        Q (Machine.classOf world.heap env decl superclass)) ctx where
  marked _ _ := trivial
  assigns _ := trivial
  declares _ _ := trivial
  plain := Value.of_isComparable
  function := ⟨fun _ _ _ => trivial, fun _ => Value.of_function _⟩
  method _ _ := Value.of_function _
  inst := Iff.rfl
  wrapped hcls := hcls
  native _ := trivial
  fault _ := Value.of_class?_eq_none rfl
  raised _ := trivial
  failure _ := trivial
  cls hmade _ _ := Value.of_cls hmade

/-- What the classes among contents have in common, and those that they inherit from. -/
theorem Content.forall_of_lineage :
    (∀ content ∈ contents, content.Of fun top => ∀ cls ∈ top.lineage, Q cls) ↔ ∀ cls,
      cls.Among contents → Q cls := by
  constructor
  · rintro h cls ⟨value, top, hmem, htop, hlineage⟩
    exact h (.value value) hmem top htop cls hlineage
  · intro h content hmem
    cases content with
    | value value =>
      exact fun top htop cls hlineage => h cls ⟨value, top, hmem, htop, hlineage⟩
    | _ => exact trivial

namespace Machine

/-- The next transition makes the class. -/
def Makes (m : Machine) (cls : Class) : Prop :=
  ∃ env decl superclass, DeclaresClass env decl superclass m ∧
    cls = classOf m.world.heap env decl superclass

/-! ## New classes -/

section

variable (heap : Heap) (env : ScopeId) (decl : ClassDecl)

theorem superclass?_classOf (superclass : Option Class) :
    (classOf heap env decl superclass).superclass? = superclass := by
  cases superclass <;> rfl

/-- A class is stamped when its methods have been. -/
theorem le_stamp_classOf (superclass : Option Class) :
    heap.nextStamp ≤ (classOf heap env decl superclass).stamp := by
  have hmethods : ∀ (heap : Heap) (closure : ScopeId),
      heap.nextStamp ≤
        (heap.makeClass decl.name.node superclass decl.methods closure).1.stamp := by
    intro heap closure
    have hdrawn : heap.Edits (fun _ _ => False)
        (Heap.makeMethods closure ([], heap) decl.methods).2 :=
      .makeMethods closure decl.methods .none
    exact hdrawn.nextStamp_le
  cases superclass with
  | none => exact hmethods (heap.define env decl.name.node .nothing) env
  | some superclass =>
    exact hmethods ((heap.define env decl.name.node .nothing).makeChild env _).2 _

theorem nextStamp_declareClass (world : World) (pending : List Pending)
    (superclass : Option Class) :
    (declareClass world pending env decl superclass).world.heap.nextStamp =
      (classOf world.heap env decl superclass).stamp + 1 := by
  cases superclass <;> rfl

end

namespace DeclaresClass

variable {m : Machine} {env : ScopeId} {decl : ClassDecl} {superclass : Option Class}

theorem step_eq (h : DeclaresClass env decl superclass m) (ctx : Context) :
    ∃ pending, m.step ctx = declareClass m.world pending env decl superclass := by
  cases h with
  | @root world span pending hroot =>
    refine ⟨pending, ?_⟩
    simp only [step, execute, hroot]
  | derived => exact ⟨_, rfl⟩

/-- The superclass is there. -/
theorem among (h : DeclaresClass env decl superclass m) {found : Class}
    (hfound : superclass = some found) :
    found.Among m.contents := by
  cases h with
  | root hroot => cases hfound
  | derived =>
    cases hfound
    refine ⟨.cls found, found, ?_, rfl, found.self_mem_lineage⟩
    exact mem_append_right _ (mem_append_left _ mem_cons_self)

end DeclaresClass

theorem Makes.unique {m : Machine} {other : Class} (h : m.Makes cls)
    (h' : m.Makes other) : cls = other := by
  obtain ⟨env, decl, superclass, hdeclares, rfl⟩ := h
  obtain ⟨env', decl', superclass', hdeclares', rfl⟩ := h'
  cases hdeclares <;> cases hdeclares' <;> rfl

/-- Every class of the next state was there before or is made now. -/
theorem among_of_step {ctx : Context} {m : Machine}
    (h : cls.Among (m.step ctx).contents) :
    cls.Among m.contents ∨ m.Makes cls := by
  have hold : ∀ content ∈ m.contents, content.Of fun top => ∀ cls ∈ top.lineage,
      cls.Among m.contents ∨ m.Makes cls :=
    Content.forall_of_lineage.2 fun cls hcls => .inl hcls
  refine Content.forall_of_lineage.1
    ((Content.closed_of ctx).step ?_ hold (Nat.zero_le _)).1 cls h
  intro env decl superclass hdeclares cls hcls
  rcases Class.mem_lineage hcls with rfl | ⟨found, hfound, hlineage⟩
  · exact .inr ⟨env, decl, superclass, hdeclares, rfl⟩
  · rw [superclass?_classOf] at hfound
    exact .inl ((hdeclares.among hfound).ancestor hlineage)

end Machine

end Treewalk
