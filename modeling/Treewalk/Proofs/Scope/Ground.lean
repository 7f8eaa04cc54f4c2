import Treewalk.Proofs.Scope.Event

/-!
# Keeping values in their places

What the machine does to its world is made of few operations on the heap and the frames.
Each of them keeps the values of the world in their places (`Ground`), given that the
values it adds are in theirs. A name that a reference looks up at its recorded distance
is there: the resolution agrees with the regions of the reference (`Agrees`), and the
environment of the reference has a scope for each region.

## Main results

* `Ground.read`: reading a name gives a value, or fails as undefined at a node without a
  distance.
* `Ground.scopeSlot`: likewise for the scope that an assignment changes.
-/

namespace Treewalk

open List

variable {regions : Regions} {value receiver : Value} {act : Act} {world : World}
  {method : Function} {decl : FunctionDecl} {superclass : Option Class}
  {methods : List FunctionDecl} {closure : ScopeId}

/-- The recorded distance of every reference is the one that its regions give. -/
def Agrees (plan : List Site) (resolution : Resolution) : Prop :=
  ∀ site ∈ plan, ∀ id name, site.mention.Refers id name →
    resolution.distance? id = site.regions.distance? name

/-- At the distance of a name there is a region that declares it. -/
theorem Regions.exists_of_distance? {name : String} {d : Nat}
    (h : regions.distance? name = some d) :
    ∃ region, regions[d]? = some region ∧ name ∈ region.names := by
  obtain ⟨hlt, hcontains, -⟩ := List.findIdx?_eq_some_iff_getElem.1 h
  exact ⟨regions[d], List.getElem?_eq_getElem hlt, by simpa using hcontains⟩

theorem Table.get?_putAll {α : Type} {name : String} {value : α} :
    ∀ {entries : List (String × α)} {table : Table α},
      (table.putAll entries).get? name = some value →
        table.get? name = some value ∨ (name, value) ∈ entries
  | [], _, h => .inl h
  | (key, entry) :: rest, table, h => by
    have hrest : (Table.putAll (table.put key entry) rest).get? name = some value := h
    rcases Table.get?_putAll hrest with hput | hmem
    · by_cases hkey : name = key
      · subst hkey
        rw [Table.get?_put_self] at hput
        exact .inr (by simp [Option.some.inj hput])
      · rw [Table.get?_put_of_ne hkey] at hput
        exact .inl hput
    · exact .inr (mem_cons_of_mem _ hmem)

/-- The names of all entries are there afterwards. -/
theorem Table.has_putAll {α : Type} {name : String} :
    ∀ {entries : List (String × α)} {table : Table α},
      (table.has name = true ∨ name ∈ entries.map (·.1)) →
        (table.putAll entries).has name = true
  | [], _, h => h.elim id fun hmem => by cases hmem
  | (key, entry) :: rest, table, h => by
    refine @Table.has_putAll _ _ rest (table.put key entry) ?_
    by_cases hkey : name = key
    · subst hkey
      exact .inl (by simp [Table.has])
    · rcases h with h | h
      · refine .inl ?_
        simpa [Table.has, Table.get?_put_of_ne hkey] using h
      · refine .inr ?_
        simpa [hkey] using h

section Ground

variable {plan : List Site} {origins origins' : List Origin} {acts : List Act}
  {heap heap' : Heap} {frames : Frames} {output output' : String}

namespace Ground

section

variable (h : Ground plan origins acts ⟨heap, frames, output⟩)

include h

/-- The values of a heap that grew are old ones or have their places. -/
theorem extend (e : History.Extends ⟨heap, origins⟩ ⟨heap', origins'⟩)
    (hsize : origins'.length = heap'.scopes.size)
    (hvalues : heap.Holds (ValueOk plan ⟨heap', origins'⟩) →
      heap'.Holds (ValueOk plan ⟨heap', origins'⟩)) :
    Ground plan origins' acts ⟨heap', frames, output'⟩ where
  size := hsize
  root := by
    have hroot : heap.chain globalScope = [globalScope] := h.root
    have hkept : heap'.chain globalScope = heap.chain globalScope :=
      e.chain globalScope (by simp [hroot])
    exact hkept.trans hroot
  globals := e.origin _ _ h.globals
  values := by
    have hkept := h.values.mono fun _ hvalue => ValueOk.mono hvalue e
    exact ⟨hvalues hkept.heap, hkept.frames⟩
  places act hact := (h.places act hact).mono e
  depth := h.depth

/-- A name is bound. -/
theorem define {env : ScopeId} {name : String} (henv : env < heap.scopes.size)
    (hvalue : ValueOk plan ⟨heap.define env name value, origins⟩ value) :
    Ground plan origins acts ⟨heap.define env name value, frames, output⟩ := by
  have hsets := Heap.Sets.define henv name value
  have hsize : (heap.define env name value).scopes.size = heap.scopes.size := by
    simp [Heap.define]
  exact h.extend (hsets.extension origins) (Eq.trans h.size hsize.symm) fun hkept =>
    hkept.define env name hvalue

/-- Only stamps are drawn. -/
theorem of_eq (hscopes : heap'.scopes = heap.scopes)
    (hfields : heap'.fields = heap.fields) :
    Ground plan origins acts ⟨heap', frames, output'⟩ := by
  have e := (Heap.Untouched.of_scopes_eq hscopes).same origins
  refine h.extend e (Eq.trans h.size (congrArg Array.size hscopes.symm))
    fun hkept => ⟨?_, ?_⟩
  · rw [hscopes]
    exact hkept.scopes
  · rw [hfields]
    exact hkept.fields

theorem makeInstance (cls : Class) :
    Ground plan origins acts ⟨(heap.makeInstance cls).2, frames, output⟩ := by
  have e := (Heap.Untouched.of_scopes_eq (heap.scopes_makeInstance cls)).same origins
  exact h.extend e h.size fun hkept => hkept.makeInstance cls

theorem setField (inst : Instance) (name : String)
    (hvalue : ValueOk plan ⟨heap, origins⟩ value) :
    Ground plan origins acts ⟨heap.setField inst name value, frames, output⟩ := by
  have e :=
    (Heap.Untouched.of_scopes_eq (heap.scopes_setField inst name value)).same origins
  exact h.extend e h.size fun hkept => hkept.setField inst name (hvalue.mono e)

/-! ### Frames and activations -/

theorem push (act : Act) (hplace : Place plan ⟨heap, origins⟩ act.env act.regions)
    (name : String) :
    Ground plan origins (act :: acts) ⟨heap, frames.push name, output⟩ where
  size := h.size
  root := h.root
  globals := h.globals
  values := h.values.push name
  places := forall_mem_cons.2 ⟨hplace, h.places⟩
  depth := congrArg (· + 1) h.depth

omit h in
theorem pop (h : Ground plan origins (act :: acts) ⟨heap, frames, output⟩) :
    Ground plan origins acts ⟨heap, frames.pop, output⟩ where
  size := h.size
  root := h.root
  globals := h.globals
  values := h.values.pop
  places other hother := h.places other (mem_cons_of_mem _ hother)
  depth := by
    have hdepth : frames.list.length = acts.length + 1 := h.depth
    simp [hdepth]

private theorem modifyTop {f : Table Value → Table Value}
    (hf : ∀ table, Table.Holds (ValueOk plan ⟨heap, origins⟩) table →
      Table.Holds (ValueOk plan ⟨heap, origins⟩) (f table)) :
    Ground plan origins acts ⟨heap, frames.modifyTop f, output⟩ := by
  refine ⟨h.size, h.root, h.globals, h.values.modifyTop hf, h.places,
    Eq.trans ?_ h.depth⟩
  obtain ⟨list, depth, hdepth⟩ := frames
  cases list <;> rfl

theorem add (name : String) (hvalue : ValueOk plan ⟨heap, origins⟩ value) :
    Ground plan origins acts ⟨heap, frames.add name value, output⟩ :=
  h.modifyTop fun _ htable => htable.put name hvalue

theorem addNamed {args : List (Expr × Value)}
    (hargs : ∀ arg ∈ args, ValueOk plan ⟨heap, origins⟩ arg.2) :
    Ground plan origins acts
      ⟨heap, frames.addAll (Machine.namedArguments args), output⟩ :=
  h.modifyTop fun _ htable => htable.putAll (Table.Holds.namedArguments hargs)

end

/-- The code of the top frame goes on elsewhere. -/
theorem move (h : Ground plan origins (act :: acts) ⟨heap, frames, output⟩) (next : Act)
    (hplace : Place plan ⟨heap, origins⟩ next.env next.regions) :
    Ground plan origins (next :: acts) ⟨heap, frames, output⟩ :=
  { h with places := forall_mem_cons.2 ⟨hplace, (forall_mem_cons.1 h.places).2⟩ }

theorem place (h : Ground plan origins (act :: acts) world) :
    Place plan ⟨world.heap, origins⟩ act.env act.regions :=
  h.places act mem_cons_self

/-! ### Scopes inside a place -/

/-- A scope is made inside an environment, for a region inside its place. -/
theorem makeChild (h : Ground plan origins acts ⟨heap, frames, output⟩) {env : ScopeId}
    (hplace : Place plan ⟨heap, origins⟩ env regions) (region : Region)
    {table : Table Value} (htable : Table.Holds (ValueOk plan ⟨heap, origins⟩) table)
    (hnames : ∀ name ∈ region.names, table.has name = true)
    (hdeclared : region.origin.isBody = true → ∀ name ∈ region.names, ∃ binder regions',
      ⟨.declare binder name, regions', false⟩ ∈ plan ∧
      Regions.origins regions' = Regions.origins (region :: regions)) :
    Ground plan (origins ++ [region.origin]) acts ⟨(heap.makeChild env table).2,
      frames, output⟩ ∧ (heap.makeChild env table).2.Inside heap.scopes.size env ∧
      Place plan ⟨(heap.makeChild env table).2, origins ++ [region.origin]⟩
        heap.scopes.size (region :: regions) := by
  have e := (Heap.Untouched.makeScope heap (heap.chain env) table).extension origins
    [region.origin]
  have hground : Ground plan (origins ++ [region.origin]) acts
      ⟨(heap.makeChild env table).2, frames, output⟩ := by
    refine h.extend e ?_ fun hkept =>
      hkept.makeChild env (htable.mono fun _ hvalue => ValueOk.mono hvalue e)
    have hsize : origins.length = heap.scopes.size := h.size
    simp [Heap.makeChild, Heap.makeScope, hsize]
  have hplace' : Place plan ⟨(heap.makeChild env table).2, origins ++ [region.origin]⟩
      env regions :=
    hplace.mono e
  have hchain : (heap.makeChild env table).2.chain heap.scopes.size =
      heap.scopes.size :: (heap.makeChild env table).2.chain env := by
    have hkept : (heap.makeChild env table).2.chain env = heap.chain env :=
      e.chain env hplace.chain_ne_nil
    rw [hkept]
    exact Heap.chain_makeScope_self heap (heap.chain env) table
  refine ⟨hground, ⟨hchain, hplace'.chain_ne_nil⟩,
    hplace'.inside hchain ?_ ?_ hdeclared⟩
  · have hsize : origins.length = heap.scopes.size := h.size
    simp [← hsize]
  · intro name hname
    show ((heap.makeScope (heap.chain env) table).2.bindings heap.scopes.size).has
      name = true
    rw [Heap.bindings_makeScope_self]
    exact hnames name hname

/-- A method that has its place is bound to a receiver. -/
theorem bind (h : Ground plan origins acts world)
    (hmethod : MethodOk plan ⟨world.heap, origins⟩ method)
    (hreceiver : ValueOk plan ⟨world.heap, origins⟩ receiver) :
    Ground plan (origins ++ [.receiver method.decl]) acts
      (world.bind method receiver).2 ∧
      world.heap.Untouched (world.bind method receiver).2.heap ∧
      (world.bind method receiver).2.frames = world.frames ∧
      FunctionOk plan
      ⟨(world.bind method receiver).2.heap, origins ++ [.receiver method.decl]⟩
        (world.heap.bind method receiver).1 := by
  obtain ⟨heap, frames, output⟩ := world
  obtain ⟨regions, hplace, hsites, hformed⟩ := hmethod
  obtain ⟨hground, -, hinner⟩ := h.makeChild hplace ⟨.receiver method.decl, ["this"]⟩
    (forall_mem_singleton.2 hreceiver : Table.Holds _ [("this", receiver)])
    (by simp [Table.has, Table.get?]) (by intro hbody; cases hbody)
  have hdraw : (heap.makeChild method.closure [("this", receiver)]).2.Untouched
      (heap.bind method receiver).2 := .of_scopes_eq rfl
  refine ⟨hground.of_eq rfl rfl, ?_, rfl, _, hinner.mono (hdraw.same _), hsites,
    hformed, fun _ => ?_⟩
  · exact (Heap.Untouched.makeScope heap (heap.chain method.closure) _).trans hdraw
  · show ((heap.makeScope (heap.chain method.closure) [("this", receiver)]).2.bindings
      heap.scopes.size).has "this" = true
    rw [Heap.bindings_makeScope_self]
    rfl

/-! ### Lookups -/

section Lookups

variable {ctx : Context} {world : World} {env : ScopeId} {regions : Regions}
  {id : NodeId} {name : String}

variable (h : Ground plan origins acts world)

include h

theorem readGlobal (name : String) (env : ScopeId) :
    (∃ value, world.readGlobal name env = .ok value ∧
      (world.heap.bindings globalScope).get? name = some value ∧
      ValueOk plan ⟨world.heap, origins⟩ value) ∨
    (∃ known, world.readGlobal name env = .error (.undefinedVariable name known) ∧
      ¬world.heap.Binds globalScope name) := by
  unfold World.readGlobal
  cases hget : (world.heap.bindings globalScope).get? name with
  | some value => exact .inl ⟨value, rfl, rfl, (h.values.heap.bindings _).get? hget⟩
  | none =>
    refine .inr ⟨_, rfl, fun hbinds => ?_⟩
    obtain ⟨value, hvalue⟩ := Heap.binds_iff.1 hbinds
    rw [hget] at hvalue
    cases hvalue

omit h in
private theorem atDistance (hplace : Place plan ⟨world.heap, origins⟩ env regions)
    {d : Nat} (hd : regions.distance? name = some d) :
    ∃ scope value, (world.heap.chain env)[d]? = some scope ∧
      (world.heap.bindings scope).get? name = some value := by
  obtain ⟨region, hregion, hname⟩ := Regions.exists_of_distance? hd
  obtain ⟨scope, hscope, -, hbinds⟩ := hplace.fits.getElem? hregion
  obtain ⟨value, hvalue⟩ := Heap.binds_iff.1 (hbinds name hname)
  exact ⟨scope, value, hscope, hvalue⟩

theorem read (hagrees : Agrees plan ctx.resolution)
    (hplace : Place plan ⟨world.heap, origins⟩ env regions) {inArguments : Bool}
    (hsite : ⟨.read id name, regions, inArguments⟩ ∈ plan) :
    (∃ value, ctx.read world name id env = .ok value ∧
      ValueOk plan ⟨world.heap, origins⟩ value) ∨
    (∃ known, ctx.read world name id env = .error (.undefinedVariable name known) ∧
      ctx.resolution.distance? id = none) := by
  have hdistance : ctx.resolution.distance? id = regions.distance? name :=
    hagrees _ hsite id name (.inl rfl)
  cases hread : ctx.read world name id env with
  | ok value => exact .inl ⟨value, rfl, h.values.read hread⟩
  | error cause =>
    unfold Context.read at hread
    split at hread
    · cases hread
    · cases hd : regions.distance? name with
      | some d =>
        obtain ⟨scope, value, hscope, hvalue⟩ := atDistance hplace hd
        simp only [hdistance, hd, Heap.getAt, Heap.ancestor, hscope, hvalue] at hread
        cases hread
      | none =>
        simp only [hdistance, hd] at hread
        rcases h.readGlobal name env with ⟨value, hglobal, -⟩ | ⟨s, hglobal, -⟩
        · cases hglobal.symm.trans hread
        · cases hglobal.symm.trans hread
          exact .inr ⟨s, rfl, hdistance.trans hd⟩

theorem scopeSlot (hagrees : Agrees plan ctx.resolution)
    (hplace : Place plan ⟨world.heap, origins⟩ act.env act.regions)
    (hsite : ⟨.write id name, act.regions, act.inArguments⟩ ∈ plan) :
    (∃ scope, ctx.scopeSlot world name id act.env = .ok scope ∧
      scope < world.heap.scopes.size ∧ AssignedAt world.heap act name (some scope)) ∨
    (∃ known, ctx.scopeSlot world name id act.env =
      .error (.undefinedVariable name known) ∧ ctx.resolution.distance? id = none ∧
      AssignedAt world.heap act name none) := by
  have hdistance : ctx.resolution.distance? id = act.regions.distance? name :=
    hagrees _ hsite id name (.inr rfl)
  unfold Context.scopeSlot
  cases hd : act.regions.distance? name with
  | some d =>
    obtain ⟨scope, value, hscope, hvalue⟩ := atDistance hplace hd
    refine .inl ⟨scope, ?_, Heap.lt_size_of_get? hvalue, .inl ⟨d, hd, hscope⟩⟩
    simp only [hdistance, hd, Heap.slotAt, Heap.ancestor, hscope, Table.has, hvalue,
      Option.isSome_some, if_true]
  | none =>
    simp only [hdistance, hd]
    rcases h.readGlobal name act.env with
      ⟨value, hread, hvalue, -⟩ | ⟨s, hread, hnot⟩
    · refine .inl ⟨globalScope, ?_, Heap.lt_size_of_get? hvalue, .inr ⟨hd, rfl⟩⟩
      rw [hread]
      rfl
    · refine .inr ⟨s, ?_, trivial, hd, hnot⟩
      rw [hread]
      rfl

theorem superMethod (hsuper : world.superMethod name env = .ok (method, receiver)) :
    MethodOk plan ⟨world.heap, origins⟩ method ∧
      ValueOk plan ⟨world.heap, origins⟩ receiver := by
  obtain ⟨superclass, hlookup, hthis, hmethod⟩ := World.superMethod_eq_ok_iff.1 hsuper
  have hcls : ClassOk plan ⟨world.heap, origins⟩ superclass :=
    h.values.heap.lookup? hlookup
  exact ⟨hcls _ _ hmethod, h.values.heap.lookup? hthis⟩

/-- A property of a value is taken. -/
theorem take {object : Value} {property : Heap.Property × Instance}
    (hobject : ValueOk plan ⟨world.heap, origins⟩ object)
    (hproperty : world.property object name = .ok property) :
    Ground plan (origins ++ Machine.openedByTake property) acts
      (world.take property).2 ∧ world.heap.Untouched (world.take property).2.heap ∧
      (world.take property).2.frames = world.frames ∧
      ValueOk plan
        ⟨(world.take property).2.heap, origins ++ Machine.openedByTake property⟩
        (world.take property).1 := by
  obtain ⟨property, inst⟩ := property
  obtain ⟨rfl, ⟨value, rfl, hfield⟩ | ⟨method, rfl, hmethod⟩⟩ :=
    World.property_eq_ok hproperty
  · simp only [Machine.openedByTake, append_nil]
    exact ⟨h, .of_scopes_eq rfl, rfl, (h.values.heap.fieldsOf _).get? hfield⟩
  · exact h.bind (hobject _ _ hmethod) hobject

end Lookups

end Ground

end Ground

/-! ## Declarations -/

section Declarations

variable {plan : List Site} {origins : List Origin} {acts : List Act} {env : ScopeId}
  {regions : Regions} {heap heap' : Heap} {frames : Frames} {output name : String}
  {value : Value} {span : Span}

theorem Place.lt_size {log : History} (h : Place plan log env regions) :
    env < log.heap.scopes.size :=
  Heap.lt_size_of_chain h.chain_ne_nil

private theorem Place.sets {binder : Binder}
    (h : Place plan ⟨heap, origins⟩ env regions)
    (hsets : heap.Sets heap' env name value)
    (hsite : ⟨.declare binder name, regions, false⟩ ∈ plan) :
    Place plan ⟨heap', origins⟩ env (regions.declare [name]) := by
  refine (h.mono (hsets.extension origins)).declare ?_ ?_
  · intro other hother
    obtain rfl := mem_singleton.1 hother
    exact hsets.binds
  · intro other hother
    obtain rfl := mem_singleton.1 hother
    exact ⟨binder, hsite⟩

namespace Ground

/-- A variable is declared. -/
theorem declareVar
    (h : Ground plan origins (⟨env, regions, false⟩ :: acts) ⟨heap, frames, output⟩)
    (hsite : ⟨.declare .var name, regions, false⟩ ∈ plan)
    (hvalue : ValueOk plan ⟨heap, origins⟩ value) :
    heap.Sets (heap.define env name value) env name value ∧
      Ground plan origins (⟨env, regions.declare [name], false⟩ :: acts)
        ⟨heap.define env name value, frames.add name value, output⟩ := by
  have hsets := Heap.Sets.define h.place.lt_size name value
  have hvalue' := hvalue.mono (hsets.extension origins)
  exact ⟨hsets, ((h.define h.place.lt_size hvalue').move ⟨env, _, false⟩
    (h.place.sets hsets hsite)).add name hvalue'⟩

/-- A function is declared, whose body sees its name. -/
theorem declareFunction
    (h : Ground plan origins (⟨env, regions, false⟩ :: acts) ⟨heap, frames, output⟩)
    (hsite : ⟨.declare .function decl.name.node, regions, false⟩ ∈ plan)
    (hsites : decl.sites (regions.declare [decl.name.node]) ⊆ plan)
    (hformed : decl.formed = true)
    (hvalue : value = .callable (.function ⟨heap.nextStamp, decl, env, false⟩)) :
    heap.Sets (heap.draw.2.define env decl.name.node value) env decl.name.node value ∧
      Ground plan origins (⟨env, regions.declare [decl.name.node], false⟩ :: acts)
        ⟨heap.draw.2.define env decl.name.node value, frames, output⟩ := by
  have hdrawn : Ground plan origins (⟨env, regions, false⟩ :: acts)
      ⟨heap.draw.2, frames, output⟩ :=
    h.of_eq rfl rfl
  have hsets : heap.Sets (heap.draw.2.define env decl.name.node value) env
      decl.name.node value :=
    (Heap.Sets.define hdrawn.place.lt_size _ _).after (.of_scopes_eq rfl)
  have hplace := h.place.sets hsets hsite
  have hok : ValueOk plan ⟨heap.draw.2.define env decl.name.node value, origins⟩
      value := by
    rw [hvalue] at hplace ⊢
    exact ⟨_, hplace, hsites, hformed, fun hinit => by cases hinit⟩
  exact ⟨hsets, (hdrawn.define hdrawn.place.lt_size hok).move ⟨env, _, false⟩ hplace⟩

end Ground

/-! ### Classes -/

/-- The methods that are made of declarations: of each name the last one, all in one
scope. -/
theorem Heap.makeMethods_get?_eq (closure : ScopeId) (name : String)
    (decls : List FunctionDecl) (made : Table Function × Heap) :
    ((Heap.makeMethods closure made decls).1.get? name).map
        (fun method => (method.decl, method.closure, method.isInit)) =
      ((decls.reverse.find? (·.name.node == name)).map fun decl =>
        (decl, closure, name == Class.initializer)).or
      ((made.1.get? name).map fun method =>
        (method.decl, method.closure, method.isInit)) := by
  induction decls generalizing made with
  | nil => rfl
  | cons decl rest ih =>
    obtain ⟨methods, heap⟩ := made
    rw [Heap.makeMethods, ih, reverse_cons, List.find?_append]
    cases rest.reverse.find? (·.name.node == name) with
    | some found => rfl
    | none =>
      by_cases hname : decl.name.node = name
      · subst hname
        simp [Heap.makeFunction, Heap.draw]
      · simp [Table.get?_put_of_ne (Ne.symm hname), hname]

private theorem makeClass_findMethod? {key : String}
    (h : (heap.makeClass name superclass methods closure).1.findMethod? key =
      some method) :
    method.decl ∈ methods ∧ method.closure = closure ∨
      ∃ cls, superclass = some cls ∧ cls.findMethod? key = some method := by
  have hown : ∀ {found : Function}, (Heap.makeMethods closure ([], heap) methods).1.get?
    key = some found →
      found.decl ∈ methods ∧ found.closure = closure := by
    intro found hfound
    have hmade := Heap.makeMethods_get?_eq closure key methods ([], heap)
    rw [hfound] at hmade
    obtain ⟨decl, hdecl, heq⟩ :=
      Option.map_eq_some_iff.1 (hmade.trans Option.or_none).symm
    simp only [Prod.mk.injEq] at heq
    exact ⟨heq.1 ▸ mem_reverse.1 (mem_of_find?_eq_some hdecl), heq.2.1.symm⟩
  cases superclass with
  | none => exact .inl (hown h)
  | some cls =>
    simp only [Heap.makeClass, Class.findMethod?] at h
    split at h
    · rename_i found hfound
      obtain rfl := Option.some.inj h
      exact .inl (hown hfound)
    · exact .inr ⟨cls, rfl, h⟩

private theorem methodSites_of_mem (h : decl ∈ methods)
    (hsites : FunctionDecl.methodSites regions methods ⊆ plan)
    (hformed : FunctionDecl.listFormed methods = true) :
    decl.sites (⟨.receiver decl, ["this"]⟩ :: regions) ⊆ plan ∧ decl.formed = true := by
  induction methods with
  | nil => cases h
  | cons first rest ih =>
    simp only [FunctionDecl.methodSites, append_subset] at hsites
    simp only [FunctionDecl.listFormed, Bool.and_eq_true] at hformed
    rcases mem_cons.1 h with rfl | hrest
    · exact ⟨hsites.1, hformed.1⟩
    · exact ih hrest hsites.2 hformed.2

private theorem ClassOk.makeClass {log : History}
    (hplace : Place plan log closure regions)
    (hsites : FunctionDecl.methodSites regions methods ⊆ plan)
    (hformed : FunctionDecl.listFormed methods = true)
    (hsuper : ∀ cls, superclass = some cls → ClassOk plan log cls) :
    ClassOk plan log (heap.makeClass name superclass methods closure).1 := by
  intro key method hmethod
  rcases makeClass_findMethod? hmethod with ⟨hmem, hclosure⟩ | ⟨cls, hcls, hfound⟩
  · obtain ⟨hown, hown'⟩ := methodSites_of_mem hmem hsites hformed
    exact ⟨regions, hclosure ▸ hplace, hown, hown'⟩
  · exact hsuper cls hcls key method hfound

namespace Ground

private theorem makeClass {cleared made : Heap} {inner : Regions}
    (h : Ground plan origins (⟨env, regions, false⟩ :: acts) ⟨made, frames, output⟩)
    (hsets : heap.Sets cleared env name .nothing) (huntouched : cleared.Untouched made)
    (hplace : Place plan ⟨made, origins⟩ closure inner)
    (hsites : FunctionDecl.methodSites inner methods ⊆ plan)
    (hformed : FunctionDecl.listFormed methods = true)
    (hsuper : ∀ cls, superclass = some cls → ClassOk plan ⟨made, origins⟩ cls)
    (hvalue : value = .cls (made.makeClass name superclass methods closure).1) :
    heap.Sets ((made.makeClass name superclass methods closure).2.define env name value)
      env name value ∧ Ground plan origins (⟨env, regions, false⟩ :: acts)
        ⟨(made.makeClass name superclass methods closure).2.define env name value,
          frames.add name value, output⟩ := by
  obtain ⟨stamp, hstamp⟩ := made.makeClass_heap name superclass methods closure
  have hdrawn : Ground plan origins (⟨env, regions, false⟩ :: acts)
      ⟨(made.makeClass name superclass methods closure).2, frames, output⟩ := by
    rw [hstamp]
    exact h.of_eq rfl rfl
  have hdraw : made.Untouched (made.makeClass name superclass methods closure).2 :=
    .of_scopes_eq (by rw [hstamp])
  have hdefine := Heap.Sets.define hdrawn.place.lt_size name value
  have hok : ValueOk plan
    ⟨(made.makeClass name superclass methods closure).2.define env name value,
      origins⟩ value := by
    have hcls : ValueOk plan ⟨made, origins⟩ value := by
      rw [hvalue]
      exact ClassOk.makeClass hplace hsites hformed hsuper
    exact (hcls.mono (hdraw.same origins)).mono (hdefine.extension origins)
  refine ⟨(hdefine.after (huntouched.trans hdraw)).again hsets, ?_⟩
  exact (hdrawn.define hdrawn.place.lt_size hok).add name hok

/-- What a class declaration does to the world, once its superclass is known. -/
theorem declareClass {decl : ClassDecl}
    (h : Ground plan origins (⟨env, regions, false⟩ :: acts) world)
    (hsites : decl.sites regions ⊆ plan) (hformed : decl.formed = true)
    (hmatch : superclass.isSome = decl.superclass.isSome)
    (hsuper : ∀ cls, superclass = some cls → ClassOk plan ⟨world.heap, origins⟩ cls)
    (pending : List Pending) :
    ∃ heap value, Machine.declareClass world pending env decl superclass =
        ⟨⟨heap, world.frames.add decl.name.node value, world.output⟩, .flow .normal,
          pending⟩ ∧
      ⟨.declare .cls decl.name.node, regions, false⟩ ∈ plan ∧
      world.heap.Sets heap env decl.name.node value ∧
      Ground plan (origins ++ if superclass.isSome then [.superclass decl] else [])
        (⟨env, regions.declare [decl.name.node], false⟩ :: acts)
        ⟨heap, world.frames.add decl.name.node value, world.output⟩ := by
  obtain ⟨heap, frames, output⟩ := world
  obtain ⟨name, superclass', methods, span⟩ := decl
  -- The name is cleared first, so that it is in sight of the methods.
  have hcleared := Heap.Sets.define h.place.lt_size name.node .nothing
  have hground : Ground plan origins (⟨env, regions, false⟩ :: acts)
      ⟨heap.define env name.node .nothing, frames, output⟩ :=
        h.define h.place.lt_size trivial
  have e := hcleared.extension origins
  cases superclass with
  | none =>
    obtain rfl : superclass' = none := by
      cases superclass' with
      | none => rfl
      | some _ => cases hmatch
    simp only [ClassDecl.sites, cons_subset] at hsites
    simp only [ClassDecl.formed] at hformed
    have hplace : Place plan ⟨heap.define env name.node .nothing, origins⟩ env
        (regions.declare [name.node]) := h.place.sets hcleared hsites.1
    have hmoved := hground.move ⟨env, regions.declare [name.node], false⟩ hplace
    have hnone : ∀ cls, (none : Option Class) = some cls →
        ClassOk plan ⟨heap.define env name.node .nothing, origins⟩ cls := by
      intro cls hcls
      cases hcls
    obtain ⟨hsets, hmade⟩ :=
      hmoved.makeClass hcleared (.of_scopes_eq rfl) hplace hsites.2 hformed hnone rfl
    refine ⟨_, _, rfl, hsites.1, hsets, ?_⟩
    rw [Option.isSome_none, if_neg Bool.false_ne_true, append_nil]
    exact hmade
  | some cls =>
    obtain ⟨superclass, rfl⟩ : ∃ superclass, superclass' = some superclass := by
      cases superclass' with
      | none => cases hmatch
      | some superclass => exact ⟨superclass, rfl⟩
    simp only [ClassDecl.sites, append_subset, cons_subset] at hsites
    simp only [ClassDecl.formed, Bool.and_eq_true] at hformed
    have hplace : Place plan ⟨heap.define env name.node .nothing, origins⟩ env
        (regions.declare [name.node]) := h.place.sets hcleared hsites.2.1
    have hmoved := hground.move ⟨env, regions.declare [name.node], false⟩ hplace
    have hcls : ClassOk plan ⟨heap.define env name.node .nothing, origins⟩ cls :=
      (hsuper cls rfl).mono e
    have htable :
      Table.Holds (ValueOk plan ⟨heap.define env name.node .nothing, origins⟩)
        [("super", .cls cls)] := forall_mem_singleton.2 hcls
    obtain ⟨hground', -, hinner⟩ := hmoved.makeChild hplace
      ⟨.superclass (.mk name (some superclass) methods span), ["super"]⟩ htable
      (by simp [Table.has, Table.get?]) (by intro hbody; cases hbody)
    have huntouched := Heap.Untouched.makeScope (heap.define env name.node .nothing)
      ((heap.define env name.node .nothing).chain env) [("super", .cls cls)]
    obtain ⟨hsets, hmade⟩ :=
      hground'.makeClass hcleared huntouched hinner hsites.2.2 hformed.2
      (fun found hfound => by
        obtain rfl := Option.some.inj hfound
        exact hcls.mono (huntouched.extension origins _)) rfl
    exact ⟨_, _, rfl, hsites.2.1, hsets, hmade⟩

end Ground

end Declarations

end Treewalk
