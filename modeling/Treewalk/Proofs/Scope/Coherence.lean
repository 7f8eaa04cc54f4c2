import Treewalk.Proofs.Scope.Orderly

/-!
# Frames copy scopes

In a run of an orderly program every entry of a frame is a copy of a binding in a scope:
of the scope in which the activation of the frame declared the name, as long as the code
under way is in reach of the declaration (`Copied`). Arguments are evaluated under a
frame without entries.

Two facts keep copies good. Code changes only bindings that its own activation copies,
as assignments stand in the body that declares their target. And the scopes that an
activation owns were made after those that the activations below it own (`Apart`), so no
change reaches what another frame copies. Each kind of event keeps both
(`Coherent.event`), so every path of events does.

## Main results

* `Coherent.event`, `Coherent.path`: what happens to frames and scopes keeps the copies
  good.
-/

namespace Treewalk

open List

/-! ## Copies -/

/-- The name was declared by a variable or class of the activation, and while the
declaration shows, its scope binds the name to the value. -/
def Copied (plan : List Site) (heap : Heap) (act : Act) (name : String)
    (value : Value) : Prop :=
  ∃ (binder : Binder) (home : Regions), (binder = .var ∨ binder = .cls) ∧
    ⟨.declare binder name, home, false⟩ ∈ plan ∧
    home.activation = act.regions.activation ∧
    ∀ d scope, act.regions.Shows home name d → (heap.chain act.env)[d]? = some scope →
      (heap.bindings scope).get? name = some value

/-- The frame of an activation has copies alone, and none while arguments are
evaluated. -/
structure Linked (plan : List Site) (heap : Heap) (frame : Frame) (act : Act) :
  Prop where
  seated : Seated plan heap act
  empty : act.inArguments = true → frame.values = []
  copies : ∀ name value, frame.values.get? name = some value →
    Copied plan heap act name value

/-- What the upper activation owns is newer than what the lower one owns. -/
def Apart (heap : Heap) (upper lower : Act) : Prop :=
  upper.inArguments = false → ∀ d e newer older,
    upper.regions.Owns d → (heap.chain upper.env)[d]? = some newer →
    lower.regions.Owns e → (heap.chain lower.env)[e]? = some older → older < newer

/-- Every frame has copies alone, and activations own different scopes. -/
inductive Coherent (plan : List Site) (heap : Heap) : List Frame → List Act → Prop
  | nil : Coherent plan heap [] []
  | cons {frame act frames acts} : Linked plan heap frame act →
      (∀ lower ∈ acts, Apart heap act lower) → Coherent plan heap frames acts →
      Coherent plan heap (frame :: frames) (act :: acts)

section Seats

variable {plan : List Site} {heap old new : Heap} {act : Act} {env : ScopeId}
  {regions : Regions}

theorem Seated.chain_eq (h : Seated plan heap act) :
    ∃ outer, heap.chain act.env = act.env :: outer := by
  refine Heap.chain_eq_cons fun hnil => ?_
  have hlength := h.length
  rw [hnil, length_nil] at hlength
  omega

private theorem Seated.chain_ne_nil (h : Seated plan heap act) :
    heap.chain act.env ≠ [] := by
  obtain ⟨outer, hchain⟩ := h.chain_eq
  rw [hchain]
  exact cons_ne_nil _ _

theorem Seated.kept (h : Seated plan old act)
    (hsize : old.scopes.size ≤ new.scopes.size)
    (hchain : ∀ env, old.chain env ≠ [] → new.chain env = old.chain env) :
    Seated plan new act := by
  have hsame := hchain act.env h.chain_ne_nil
  refine ⟨?_, ?_, ?_, h.declared⟩
  · rw [hsame]
    exact h.length
  · rw [hsame]
    exact h.last
  · rw [hsame]
    intro scope hscope
    exact Nat.lt_of_lt_of_le (h.made scope hscope) hsize

private theorem Seated.declare {binder : Binder} {name : String}
    (h : Seated plan heap ⟨env, regions, false⟩)
    (hsite : ⟨.declare binder name, regions, false⟩ ∈ plan) :
    Seated plan heap ⟨env, regions.declare [name], false⟩ where
  length := by
    rw [Regions.length_declare]
    exact h.length
  last := by
    rw [Regions.length_declare]
    exact h.last
  made := h.made
  declared := h.declared.declare fun other hother =>
    ⟨binder, by rw [mem_singleton.1 hother]; exact hsite⟩

private theorem Seated.openBlock {inner : ScopeId} {span : Span} {body : List Stmt}
    (h : Seated plan heap ⟨env, regions, false⟩) (hinside : heap.Inside inner env) :
    Seated plan heap ⟨inner, ⟨.block span body, []⟩ :: regions, false⟩ where
  length := by
    rw [hinside.1, length_cons, length_cons, h.length]
  last := by
    rw [hinside.1]
    exact h.last
  made := by
    intro scope hscope
    rw [hinside.1] at hscope
    rcases mem_cons.1 hscope with rfl | hscope
    · exact Heap.lt_size_of_chain (by rw [hinside.1]; exact cons_ne_nil _ _)
    · exact h.made scope hscope
  declared := ⟨fun _ name hname => absurd hname not_mem_nil, h.declared⟩

theorem Seated.closeBlock {outer : ScopeId} {region : Region}
    (h : Seated plan heap ⟨env, region :: regions, false⟩)
    (hinside : heap.Inside env outer) :
    Seated plan heap ⟨outer, regions, false⟩ where
  length := by
    have hlength := h.length
    rw [hinside.1, length_cons, length_cons] at hlength
    exact Nat.succ.inj hlength
  last := by
    have hlast := h.last
    rwa [hinside.1] at hlast
  made := by
    intro scope hscope
    refine h.made scope ?_
    rw [hinside.1]
    exact mem_cons_of_mem _ hscope
  declared := h.declared.2

end Seats

variable {names : List String} {acts : List Act} {frame : Frame} {rest : List Frame}

/-! ## Changes that spare copies -/

/-- Nothing changes that these activations own and the program declares. -/
structure Spares (plan : List Site) (old new : Heap) (acts : List Act) : Prop where
  size : old.scopes.size ≤ new.scopes.size
  chain : ∀ env, old.chain env ≠ [] → new.chain env = old.chain env
  slots : ∀ act ∈ acts, ∀ (binder : Binder) (name : String) (home : Regions),
    ⟨.declare binder name, home, false⟩ ∈ plan → ∀ d scope, act.regions.Owns d →
      (old.chain act.env)[d]? = some scope →
      (new.bindings scope).get? name = (old.bindings scope).get? name

section Changes

variable {plan : List Site} {old new : Heap} {frame : Frame} {frames : List Frame}
  {act : Act} {acts : List Act} {env : ScopeId} {name : String} {value : Value}

private theorem Coherent.seated (h : Coherent plan old frames acts) :
    ∀ act ∈ acts, Seated plan old act := by
  induction h with
  | nil => intro act hact; cases hact
  | cons hlinked _ _ ih =>
    intro act hact
    rcases mem_cons.1 hact with rfl | hact
    · exact hlinked.seated
    · exact ih act hact

private theorem Linked.spared (h : Linked plan old frame act)
    (hspares : Spares plan old new (act :: acts)) :
    Linked plan new frame act where
  seated := h.seated.kept hspares.size hspares.chain
  empty := h.empty
  copies := by
    intro name value hvalue
    obtain ⟨binder, home, hbinder, hsite, hactivation, hslot⟩ :=
      h.copies name value hvalue
    refine ⟨binder, home, hbinder, hsite, hactivation, fun d scope hshows hscope => ?_⟩
    rw [hspares.chain act.env h.seated.chain_ne_nil] at hscope
    rw [hspares.slots act mem_cons_self binder name home hsite d scope
      (hshows.owns hactivation) hscope]
    exact hslot d scope hshows hscope

theorem Apart.kept {upper lower : Act} (h : Apart old upper lower)
    (hchain : ∀ env, old.chain env ≠ [] → new.chain env = old.chain env)
    (hupper : Seated plan old upper) (hlower : Seated plan old lower) :
    Apart new upper lower := by
  intro hbody d e newer older hd hnewer he holder
  rw [hchain upper.env hupper.chain_ne_nil] at hnewer
  rw [hchain lower.env hlower.chain_ne_nil] at holder
  exact h hbody d e newer older hd hnewer he holder

private theorem Coherent.spared (h : Coherent plan old frames acts)
    (hspares : Spares plan old new acts) :
    Coherent plan new frames acts := by
  induction h with
  | nil => exact .nil
  | @cons frame act frames acts hlinked hapart hrest ih =>
    refine .cons (hlinked.spared hspares) (fun lower hlower => ?_) (ih ?_)
    · exact (hapart lower hlower).kept hspares.chain hlinked.seated
        (hrest.seated lower hlower)
    · exact ⟨hspares.size, hspares.chain, fun act hact =>
        hspares.slots act (mem_cons_of_mem _ hact)⟩

private theorem Heap.Untouched.spares (h : old.Untouched new)
    (hseated : ∀ act ∈ acts, Seated plan old act) :
    Spares plan old new acts where
  size := h.size
  chain := h.chain
  slots act hact _ name _ _ d scope _ hscope := by
    rw [h.bindings scope ((hseated act hact).made scope (mem_of_getElem? hscope))]

private theorem Heap.Sets.spares (h : old.Sets new env name value)
    (hseated : ∀ act ∈ acts, Seated plan old act)
    (hmiss : ∀ act ∈ acts, ∀ (binder : Binder) (home : Regions),
      ⟨.declare binder name, home, false⟩ ∈ plan → ∀ d, act.regions.Owns d →
      (old.chain act.env)[d]? ≠ some env) : Spares plan old new acts where
  size := h.size
  chain := h.chain
  slots := by
    intro act hact binder other home hsite d scope howns hscope
    refine h.other scope ((hseated act hact).made scope (mem_of_getElem? hscope)) other
      ?_
    rintro ⟨rfl, rfl⟩
    exact hmiss act hact binder home hsite d howns hscope

private theorem Heap.Sets.spares_below (h : old.Sets new env name value) {d : Nat}
    (hbody : act.inArguments = false) (howns : act.regions.Owns d)
    (henv : (old.chain act.env)[d]? = some env)
    (hapart : ∀ lower ∈ acts, Apart old act lower)
    (hseated : ∀ act ∈ acts, Seated plan old act) : Spares plan old new acts := by
  refine h.spares hseated fun lower hlower _ _ _ e hlowerOwns hscope => ?_
  exact Nat.lt_irrefl env
    (hapart lower hlower hbody d e env env howns henv hlowerOwns hscope)

end Changes

/-! ## The top frame -/

section Top

variable {plan : List Site} {heap old new : Heap} {frame : Frame} {act lower : Act}
  {env inner outer : ScopeId} {regions : Regions} {name other : String}
  {value found : Value} {binder : Binder} {span : Span} {body : List Stmt}

private theorem Linked.openBlock (h : Linked plan heap frame ⟨env, regions, false⟩)
    (hinside : heap.Inside inner env) :
    Linked plan heap frame ⟨inner, ⟨.block span body, []⟩ :: regions, false⟩ where
  seated := h.seated.openBlock hinside
  empty := h.empty
  copies := by
    intro name value hvalue
    obtain ⟨binder, home, hbinder, hsite, hactivation, hslot⟩ :=
      h.copies name value hvalue
    refine ⟨binder, home, hbinder, hsite, hactivation, fun d scope hshows hscope => ?_⟩
    obtain ⟨d, rfl, houter⟩ := hshows.outer
    rw [hinside.1] at hscope
    exact hslot d scope houter hscope

private theorem Apart.openBlock (h : Apart heap ⟨env, regions, false⟩ lower)
    (hinside : heap.Inside inner env)
    (hnew : ∀ scope ∈ heap.chain lower.env, scope < inner) :
    Apart heap ⟨inner, ⟨.block span body, []⟩ :: regions, false⟩ lower := by
  intro _ d e newer older hd hnewer he holder
  rw [hinside.1] at hnewer
  cases d with
  | zero =>
    obtain rfl : inner = newer := Option.some.inj hnewer
    exact hnew older (mem_of_getElem? holder)
  | succ d => exact h rfl d e newer older hd.outer hnewer he holder

theorem Linked.closeBlock
    (h : Linked plan heap frame ⟨env, ⟨.block span body, names⟩ :: regions, false⟩)
    (hinside : heap.Inside env outer) :
    Linked plan heap frame ⟨outer, regions, false⟩ where
  seated := h.seated.closeBlock hinside
  empty := h.empty
  copies := by
    intro name value hvalue
    obtain ⟨binder, home, hbinder, hsite, hactivation, hslot⟩ :=
      h.copies name value hvalue
    refine ⟨binder, home, hbinder, hsite, hactivation, fun d scope hshows hscope => ?_⟩
    refine hslot (d + 1) scope (hshows.inner _) ?_
    rw [hinside.1]
    exact hscope

private theorem Apart.closeBlock
    (h : Apart heap ⟨env, ⟨.block span body, names⟩ :: regions, false⟩ lower)
    (hinside : heap.Inside env outer) : Apart heap ⟨outer, regions, false⟩ lower := by
  intro _ d e newer older hd hnewer he holder
  refine h rfl (d + 1) e newer older (hd.inner rfl) ?_ he holder
  rw [hinside.1]
  exact hnewer

private theorem Apart.declare (h : Apart heap ⟨env, regions, false⟩ lower) :
    Apart heap ⟨env, regions.declare names, false⟩ lower :=
  fun _ d e newer older hd => h rfl d e newer older hd.of_declare

private theorem Copied.declare_other
    (h : Copied plan old ⟨env, regions, false⟩ other found)
    (hseated : Seated plan old ⟨env, regions, false⟩)
    (hsets : old.Sets new env name value) (hother : other ≠ name) :
    Copied plan new ⟨env, regions.declare [name], false⟩ other found := by
  obtain ⟨binder, home, hbinder, hsite, hactivation, hslot⟩ := h
  refine ⟨binder, home, hbinder, hsite, ?_, fun d scope hshows hscope => ?_⟩
  · rw [Regions.activation_declare]
    exact hactivation
  · rw [hsets.chain env hseated.chain_ne_nil] at hscope
    rw [hsets.other scope (hseated.made scope (mem_of_getElem? hscope)) other
      (fun hsame => hother hsame.2)]
    exact hslot d scope (hshows.of_declare hother) hscope

theorem Linked.declare (h : Linked plan old frame ⟨env, regions, false⟩)
    (hbinder : binder = .var ∨ binder = .cls)
    (hsite : ⟨.declare binder name, regions, false⟩ ∈ plan)
    (hsets : old.Sets new env name value) :
    Linked plan new ⟨frame.name, frame.values.put name value⟩
      ⟨env, regions.declare [name], false⟩ where
  seated := (h.seated.kept hsets.size hsets.chain).declare hsite
  empty hargs := by cases hargs
  copies := by
    intro other found hfound
    by_cases hother : other = name
    · subst hother
      rw [Table.get?_put_self] at hfound
      cases hfound
      refine ⟨binder, regions, hbinder, hsite, (Regions.activation_declare _ _).symm,
        fun d scope hshows hscope => ?_⟩
      obtain rfl := hshows.declare_self
      obtain ⟨outer, hchain⟩ := (h.seated.kept hsets.size hsets.chain).chain_eq
      rw [hchain] at hscope
      obtain rfl : env = scope := Option.some.inj hscope
      exact hsets.self
    · rw [Table.get?_put_of_ne hother] at hfound
      exact (h.copies other found hfound).declare_other h.seated hsets hother

private theorem Linked.function (h : Linked plan old frame ⟨env, regions, false⟩)
    (hplan : Orderly plan) (hsite : ⟨.declare .function name, regions, false⟩ ∈ plan)
    (hsets : old.Sets new env name value) :
    Linked plan new frame ⟨env, regions.declare [name], false⟩ where
  seated := (h.seated.kept hsets.size hsets.chain).declare hsite
  empty hargs := by cases hargs
  copies := by
    intro other found hfound
    have hcopied := h.copies other found hfound
    refine hcopied.declare_other h.seated hsets ?_
    rintro rfl
    obtain ⟨binder, home, hbinder, hagain, -⟩ := hcopied
    obtain ⟨rfl, -⟩ := hplan.unique hagain hsite
    rcases hbinder with hvar | hcls
    · cases hvar
    · cases hcls

end Top

/-! ## Assignments -/

section Assignment

variable {plan : List Site} {heap new : Heap} {frame : Frame} {act : Act} {id : NodeId}
  {name : String} {value old : Value} {scope : ScopeId} {binder : Binder}
  {home : Regions}

/-- The scope at which a declaration of the same activation shows is the one that an
assignment changes. -/
theorem AssignedAt.shows (h : AssignedAt heap act name (some scope))
    (hplan : Orderly plan) (hseated : Seated plan heap act)
    (hsite : ⟨.write id name, act.regions, act.inArguments⟩ ∈ plan)
    (hhome : ⟨.declare binder name, home, false⟩ ∈ plan) :
    ∃ d, act.regions.Shows home name d ∧ act.regions.Owns d ∧
      (heap.chain act.env)[d]? = some scope := by
  have hactivation : home.activation = act.regions.activation :=
    (hplan.assigned _ hsite id name rfl).2 _ hhome rfl
  obtain ⟨d, hshows, hdistance⟩ :=
    hplan.shows hsite (.inr rfl) hhome hactivation hseated.declared
  refine ⟨d, hshows, hshows.owns hactivation, ?_⟩
  have hfound : act.regions.distance? name = some d ∨
      act.regions.distance? name = none ∧ d = act.regions.length := hdistance
  rcases h with ⟨e, he, hscope⟩ | ⟨hnone, rfl⟩
  · rcases hfound with hd | ⟨hd, -⟩
    · rw [hd] at he
      cases he
      exact hscope
    · rw [hd] at he
      cases he
  · rcases hfound with hd | ⟨-, rfl⟩
    · rw [hnone] at hd
      cases hd
    · exact hseated.last

/-- A name that the frame copies is bound where an assignment looks for it. -/
theorem AssignedAt.isSome_of_copied {scope : Option ScopeId}
    (h : AssignedAt heap act name scope) (hplan : Orderly plan)
    (hseated : Seated plan heap act)
    (hsite : ⟨.write id name, act.regions, act.inArguments⟩ ∈ plan)
    (hcopied : Copied plan heap act name old) : ∃ found, scope = some found := by
  cases scope with
  | some found => exact ⟨found, rfl⟩
  | none =>
    obtain ⟨hnone, hunbound⟩ := h
    have hglobal : AssignedAt heap act name (some globalScope) := .inr ⟨hnone, rfl⟩
    obtain ⟨binder, home, -, hhome, -, hslot⟩ := hcopied
    obtain ⟨d, hshows, -, hscope⟩ := hglobal.shows hplan hseated hsite hhome
    exact (hunbound (Heap.binds_iff.2 ⟨old, hslot d _ hshows hscope⟩)).elim

private theorem AssignedAt.lt_size (h : AssignedAt heap act name (some scope))
    (hseated : Seated plan heap act) :
    scope < heap.scopes.size := by
  rcases h with ⟨d, -, hscope⟩ | ⟨-, rfl⟩
  · exact hseated.made scope (mem_of_getElem? hscope)
  · exact hseated.made _ (mem_of_getElem? hseated.last)

private theorem Copied.sets_other {other : String} {found : Value}
    (h : Copied plan heap act other found) (hseated : Seated plan heap act)
    (hsets : heap.Sets new scope name value) (hother : other ≠ name) :
    Copied plan new act other found := by
  obtain ⟨binder, home, hbinder, hsite, hactivation, hslot⟩ := h
  refine ⟨binder, home, hbinder, hsite, hactivation, fun d found hshows hfound => ?_⟩
  rw [hsets.chain act.env hseated.chain_ne_nil] at hfound
  rw [hsets.other found (hseated.made found (mem_of_getElem? hfound)) other
    (fun hsame => hother hsame.2)]
  exact hslot d found hshows hfound

private theorem Copied.assign (h : Copied plan heap act name old) (hplan : Orderly plan)
    (hseated : Seated plan heap act)
    (hsite : ⟨.write id name, act.regions, act.inArguments⟩ ∈ plan)
    (hassigned : AssignedAt heap act name (some scope))
    (hsets : heap.Sets new scope name value) :
    Copied plan new act name value := by
  obtain ⟨binder, home, hbinder, hhome, hactivation, -⟩ := h
  obtain ⟨d, hshows, -, hscope⟩ := hassigned.shows hplan hseated hsite hhome
  refine ⟨binder, home, hbinder, hhome, hactivation, fun e found hagain hfound => ?_⟩
  have hsame : e = d := by
    have hlength := hshows.length
    have hlength' := hagain.length
    omega
  subst hsame
  rw [hsets.chain act.env hseated.chain_ne_nil, hscope] at hfound
  cases hfound
  exact hsets.self

/-- An assignment of a name that is in the frame. -/
theorem Linked.assign (h : Linked plan heap frame act) (hplan : Orderly plan)
    (hsite : ⟨.write id name, act.regions, act.inArguments⟩ ∈ plan)
    (hassigned : AssignedAt heap act name (some scope))
    (hsets : heap.Sets new scope name value)
    (hold : frame.values.get? name = some old) :
    Linked plan new ⟨frame.name, frame.values.put name value⟩ act where
  seated := h.seated.kept hsets.size hsets.chain
  empty hargs := by
    rw [h.empty hargs] at hold
    cases hold
  copies := by
    intro other found hfound
    by_cases hother : other = name
    · subst hother
      rw [Table.get?_put_self] at hfound
      cases hfound
      exact (h.copies other old hold).assign hplan h.seated hsite hassigned hsets
    · rw [Table.get?_put_of_ne hother] at hfound
      exact (h.copies other found hfound).sets_other h.seated hsets hother

private theorem Linked.assign_other (h : Linked plan heap frame act)
    (hsets : heap.Sets new scope name value) (hnone : frame.values.get? name = none) :
    Linked plan new frame act where
  seated := h.seated.kept hsets.size hsets.chain
  empty := h.empty
  copies := by
    intro other found hfound
    refine (h.copies other found hfound).sets_other h.seated hsets ?_
    rintro rfl
    rw [hnone] at hfound
    cases hfound

private theorem AssignedAt.spares_below (h : AssignedAt heap act name (some scope))
    (hplan : Orderly plan) (hseated : Seated plan heap act)
    (hsite : ⟨.write id name, act.regions, act.inArguments⟩ ∈ plan)
    (hsets : heap.Sets new scope name value)
    (hapart : ∀ lower ∈ acts, Apart heap act lower)
    (hbelow : ∀ act ∈ acts, Seated plan heap act) : Spares plan heap new acts := by
  refine hsets.spares hbelow fun lower hlower binder home hhome e howns hscope => ?_
  have hbody : act.inArguments = false := (hplan.assigned _ hsite id name rfl).1
  obtain ⟨d, -, hd, hchain⟩ := h.shows hplan hseated hsite hhome
  exact Nat.lt_irrefl scope
    (hapart lower hlower hbody d e scope scope hd hchain howns hscope)

end Assignment

/-! ## Events -/

section Events

variable {plan : List Site} {scene scene' : Scene}

theorem Frames.list_add {frames : Frames} (h : frames.list = frame :: rest)
    (name : String) (value : Value) :
    (frames.add name value).list = ⟨frame.name, frame.values.put name value⟩ :: rest :=
  Frames.list_modifyTop h _

theorem Frames.get?_of_list {frames : Frames} (h : frames.list = frame :: rest)
    (name : String) :
    frames.get? name = frame.values.get? name := by
  simp [Frames.get?, Frames.top?, h]

/-- Without plain variables among the arguments, nothing goes into the frame. -/
theorem Orderly.namedArguments_eq_nil (hplan : Orderly plan)
    {args : List (Expr × Value)} (h : Called plan (args.map (·.1))) :
    Machine.namedArguments args = [] := by
  obtain ⟨id, regions, inArguments, hsite⟩ := h
  refine filterMap_eq_nil_iff.2 fun arg harg => ?_
  have hvar := hplan.arguments _ hsite id _ rfl arg.1 (mem_map.2 ⟨arg, harg, rfl⟩)
  obtain ⟨expr, value⟩ := arg
  cases expr with
  | var span id name => cases hvar
  | _ => rfl

theorem Frames.addAll_nil (frames : Frames) : frames.addAll [] = frames := by
  obtain ⟨list, depth, hdepth⟩ := frames
  cases list <;> rfl

/-- The top activation has the top frame. -/
theorem Coherent.top {heap : Heap} {frames : List Frame} {act : Act}
    (h : Coherent plan heap frames (act :: acts)) :
    ∃ frame rest, frames = frame :: rest ∧
      Linked plan heap frame act ∧ (∀ lower ∈ acts, Apart heap act lower) ∧
      Coherent plan heap rest acts := by
  cases h with
  | cons hlinked hapart hrest => exact ⟨_, _, rfl, hlinked, hapart, hrest⟩

private theorem Coherent.declare {heap heap' : Heap} {frame' : Frame} {env : ScopeId}
    {regions : Regions} {name : String} {value : Value}
    (hlinked : Linked plan heap frame ⟨env, regions, false⟩)
    (hapart : ∀ lower ∈ acts, Apart heap ⟨env, regions, false⟩ lower)
    (hrest : Coherent plan heap rest acts) (hsets : heap.Sets heap' env name value)
    (hlinked' : Linked plan heap' frame' ⟨env, regions.declare [name], false⟩) :
    Coherent plan heap' (frame' :: rest)
      (⟨env, regions.declare [name], false⟩ :: acts) := by
  obtain ⟨outer, hchain⟩ := hlinked.seated.chain_eq
  have henv : (heap.chain env)[0]? = some env := by
    rw [show heap.chain env = env :: outer from hchain]
    rfl
  have howns : regions.Owns 0 := fun _ horigin => absurd horigin not_mem_nil
  have hspares : Spares plan heap heap' acts :=
    @Heap.Sets.spares_below plan heap heap' ⟨env, regions, false⟩ acts env name value
      hsets 0 rfl howns henv hapart hrest.seated
  refine .cons hlinked' (fun lower hlower => ?_) (hrest.spared hspares)
  exact ((hapart lower hlower).kept hsets.chain hlinked.seated
    (hrest.seated lower hlower)).declare

/-- Every event keeps the copies good. -/
theorem Coherent.event (h : Coherent plan scene.heap scene.frames.list scene.acts)
    (hplan : Orderly plan) (hevent : Event plan .frames scene scene') :
    Coherent plan scene'.heap scene'.frames.list scene'.acts := by
  cases hevent with
  | quiet huntouched => exact h.spared (huntouched.spares h.seated)
  | @openBlock heap heap' frames env inner regions acts span body huntouched hfresh
      hinside =>
    obtain ⟨frame, rest, hlist, hlinked, hapart, hrest⟩ :=
      (h.spared (huntouched.spares h.seated)).top
    show Coherent plan heap' frames.list _
    rw [show frames.list = frame :: rest from hlist]
    refine .cons (hlinked.openBlock hinside) (fun lower hlower => ?_) hrest
    refine (hapart lower hlower).openBlock hinside fun scope hscope => ?_
    have hseated := h.seated lower (mem_cons_of_mem _ hlower)
    rw [huntouched.chain lower.env hseated.chain_ne_nil] at hscope
    exact Nat.lt_of_lt_of_le (hseated.made scope hscope) hfresh
  | @closeBlock heap frames env outer regions acts span body names hinside =>
    obtain ⟨frame, rest, hlist, hlinked, hapart, hrest⟩ := h.top
    show Coherent plan heap frames.list _
    rw [show frames.list = frame :: rest from hlist]
    exact .cons (hlinked.closeBlock hinside)
      (fun lower hlower => (hapart lower hlower).closeBlock hinside) hrest
  | @declare heap heap' frames env regions acts binder name value hbinder hsite hsets =>
    obtain ⟨frame, rest, hlist, hlinked, hapart, hrest⟩ := h.top
    show Coherent plan heap' (frames.add name value).list _
    rw [Frames.list_add hlist]
    exact .declare hlinked hapart hrest hsets (hlinked.declare hbinder hsite hsets)
  | @function heap heap' frames env regions acts name value hsite hsets =>
    obtain ⟨frame, rest, hlist, hlinked, hapart, hrest⟩ := h.top
    show Coherent plan heap' frames.list _
    rw [show frames.list = frame :: rest from hlist]
    exact .declare hlinked hapart hrest hsets (hlinked.function hplan hsite hsets)
  | @assign heap frames act acts id name value scope assigned hsite hassigned hframe =>
    obtain ⟨frame, rest, hlist, hlinked, hapart, hrest⟩ := h.top
    have hget := Frames.get?_of_list hlist name
    have hassigns := hframe rfl
    rw [hget] at hassigns
    cases scope with
    | none =>
      -- Nothing is bound, so the frame has no copy and nothing changes.
      have hnone : frame.values.get? name = none := by
        cases hvalue : frame.values.get? name with
        | none => rfl
        | some old =>
          obtain ⟨found, hfound⟩ :=
            hassigned.isSome_of_copied hplan hlinked.seated hsite
            (hlinked.copies name old hvalue)
          cases hfound
      rw [hnone] at hassigns
      subst hassigns
      exact h
    | some scope =>
      have hsets := Heap.Sets.define (hassigned.lt_size hlinked.seated) name value
      have hspares :=
        hassigned.spares_below hplan hlinked.seated hsite hsets hapart hrest.seated
      have hapart' : ∀ lower ∈ acts, Apart (heap.define scope name value) act lower :=
        fun lower hlower => (hapart lower hlower).kept hsets.chain hlinked.seated
          (hrest.seated lower hlower)
      show Coherent plan (heap.define scope name value)
        (if assigned = true then _ else frames).list _
      cases hvalue : frame.values.get? name with
      | none =>
        rw [hvalue] at hassigns
        subst hassigns
        show Coherent plan (heap.define scope name value) frames.list _
        rw [show frames.list = frame :: rest from hlist]
        exact .cons (hlinked.assign_other hsets hvalue) hapart' (hrest.spared hspares)
      | some old =>
        rw [hvalue] at hassigns
        subst hassigns
        show Coherent plan (heap.define scope name value) (frames.add name value).list _
        rw [Frames.list_add hlist]
        exact .cons (hlinked.assign hplan hsite hassigned hsets hvalue) hapart'
          (hrest.spared hspares)
  | @call heap frames name env regions inArguments acts =>
    obtain ⟨frame, rest, hlist, hlinked, hapart, hrest⟩ := h.top
    have hseated : Seated plan heap ⟨env, regions, true⟩ :=
      ⟨hlinked.seated.length, hlinked.seated.last, hlinked.seated.made,
        hlinked.seated.declared⟩
    refine .cons ⟨hseated, fun _ => rfl, ?_⟩ (fun lower hlower hbody => by cases hbody)
      h
    intro name value hvalue
    cases hvalue
  | arguments hcalled =>
    simp only [hplan.namedArguments_eq_nil hcalled, Frames.addAll_nil]
    exact h
  | @body heap heap' frames env inner regions regions' decl names acts huntouched hfresh
      hseated =>
    obtain ⟨frame, rest, hlist, hlinked, -, hrest⟩ :=
      (h.spared (huntouched.spares h.seated)).top
    show Coherent plan heap' frames.list _
    rw [show frames.list = frame :: rest from hlist]
    have hempty : frame.values = [] := hlinked.empty rfl
    refine .cons ⟨hseated, (fun hargs => by cases hargs), ?_⟩
      (fun lower hlower => ?_) hrest
    · intro name value hvalue
      rw [hempty] at hvalue
      cases hvalue
    · intro _ d e newer older hd hnewer _ holder
      obtain rfl := hd.eq_zero rfl
      obtain ⟨outer, hchain⟩ := hseated.chain_eq
      rw [hchain] at hnewer
      obtain rfl : inner = newer := Option.some.inj hnewer
      have hlow := h.seated lower (mem_cons_of_mem _ hlower)
      rw [huntouched.chain lower.env hlow.chain_ne_nil] at holder
      exact Nat.lt_of_lt_of_le (hlow.made older (mem_of_getElem? holder)) hfresh
  | @leave heap frames act acts =>
    obtain ⟨frame, rest, hlist, -, -, hrest⟩ := h.top
    show Coherent plan heap frames.pop.list _
    rw [Frames.list_pop, show frames.list = frame :: rest from hlist]
    exact hrest

/-- So does every path of events. -/
theorem Coherent.path (h : Coherent plan scene.heap scene.frames.list scene.acts)
    (hplan : Orderly plan) (hpath : Path plan .frames scene scene') :
    Coherent plan scene'.heap scene'.frames.list scene'.acts := by
  induction hpath with
  | refl => exact h
  | tail _ hevent ih => exact ih.event hplan hevent

end Events

end Treewalk
