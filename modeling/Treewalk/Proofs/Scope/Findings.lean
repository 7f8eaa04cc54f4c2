import Treewalk.Proofs.Scope.Sites
import Treewalk.Scope.Resolve

/-!
# Sites and what resolution finds

The walk of resolution and the list of sites go over the same tree, the one with the
names in sight and the other with the regions around each place. Where the two agree on
the open scopes (`Sight.Sees`) they agree on the distance of every reference. The one
difference of order, that a superclass is looked up before the class is there, does not
show: a class may not name itself as its superclass.

## Main results

* `Stmt.distance_mem_notes`: the distances found in a tree are those of its sites.
* `Program.distance?_of_site`: the recorded distance of a site is the one that its
  regions give.
-/

namespace Treewalk

open List

variable {id : NodeId} {name : String} {notes : List Note} {resolution : Resolution}

/-! ## Sites and findings -/

/-- Some site has this finding. -/
def Finds (sites : List Site) (note : Note) : Prop :=
  ∃ site ∈ sites, site.finding? = some note

@[simp] theorem finds_nil (note : Note) : ¬Finds [] note := by
  simp [Finds]

@[simp] theorem finds_cons (site : Site) (sites : List Site) (note : Note) :
    Finds (site :: sites) note ↔ site.finding? = some note ∨ Finds sites note := by
  simp [Finds]

@[simp] theorem finds_append (sites sites' : List Site) (note : Note) :
    Finds (sites ++ sites') note ↔ Finds sites note ∨ Finds sites' note := by
  simp [Finds, or_and_right, exists_or]

private theorem finds_params (regions : Regions) (params : List Name) (note : Note) :
    ¬Finds (params.map fun param => ⟨.declare .param param.node, regions, false⟩)
      note := by
  simp [Finds, Site.finding?]

namespace Sight

/-- The scopes in sight are the regions. -/
def Sees (sight : Sight) (regions : Regions) : Prop :=
  sight.scopes = regions.map Region.names

variable {sight : Sight} {regions : Regions}

private theorem Sees.declare (h : sight.Sees regions) (names : List String) :
    (sight.declare names).Sees (regions.declare names) := by
  unfold Sees at h ⊢
  cases regions with
  | nil => simp only [Sight.declare, h, map_nil, Regions.declare]
  | cons region outer => simp only [Sight.declare, h, map_cons, Regions.declare]

theorem Sees.enter (h : sight.Sees regions) (origin : Origin) (names : List String) :
    (sight.enter names).Sees (⟨origin, names⟩ :: regions) :=
  congrArg (names :: ·) h

private theorem Sees.distance? (h : sight.Sees regions) (name : String) :
    sight.distance? name = regions.distance? name := by
  rw [Sight.distance?, h, List.findIdx?_map]
  rfl

theorem mem_reference {note : Note} :
    note ∈ sight.reference id name ↔ (sight.distance? name).map (Note.distance id) =
      some note := by
  unfold reference
  cases sight.distance? name with
  | none => simp
  | some distance => simp [eq_comm]

theorem distance_not_mem_call {id' : NodeId} {d : Nat} (callee : Expr) :
    Note.distance id d ∉ sight.call id' callee := by
  unfold call
  split
  · split <;> simp
  · simp

end Sight

section Findings

variable {sight : Sight} {regions : Regions} {id : NodeId} {d : Nat}

mutual

private theorem Expr.distance_mem_notes (h : sight.Sees regions) (inArguments : Bool) :
    ∀ expr : Expr,
    Note.distance id d ∈ expr.notes sight ↔
      Finds (expr.sites regions inArguments) (Note.distance id d)
  | .assign _ _ name value => by
    simp [notes, sites, Expr.distance_mem_notes h inArguments value,
      Sight.mem_reference, h.distance?, Site.finding?]
  | .binary _ left _ right => by
    simp [notes, sites, Expr.distance_mem_notes h inArguments left,
      Expr.distance_mem_notes h inArguments right]
  | .call _ _ callee args => by
    simp [notes, sites, Expr.distance_mem_notes h inArguments callee,
      Expr.distance_mem_listNotes h args, Sight.distance_not_mem_call, Site.finding?]
  | .get _ object _ =>
    by simp [notes, sites, Expr.distance_mem_notes h inArguments object]
  | .grouping _ inner =>
    by simp [notes, sites, Expr.distance_mem_notes h inArguments inner]
  | .literal .. => by simp [notes, sites]
  | .logical _ left _ right => by
    simp [notes, sites, Expr.distance_mem_notes h inArguments left,
      Expr.distance_mem_notes h inArguments right]
  | .set _ object _ value => by
    simp [notes, sites, Expr.distance_mem_notes h inArguments object,
      Expr.distance_mem_notes h inArguments value, or_comm]
  | .super .. => by simp [notes, sites]
  | .this _ => by simp [notes, sites]
  | .unary _ _ operand =>
    by simp [notes, sites, Expr.distance_mem_notes h inArguments operand]
  | .var _ _ name => by
    simp [notes, sites, Sight.mem_reference, h.distance?, Site.finding?]

private theorem Expr.distance_mem_listNotes (h : sight.Sees regions) :
    ∀ args : List Expr,
    Note.distance id d ∈ listNotes sight args ↔
      Finds (argumentSites regions args) (Note.distance id d)
  | [] => by simp [listNotes, argumentSites]
  | arg :: rest => by
    simp [listNotes, argumentSites, Expr.distance_mem_notes h true arg,
      Expr.distance_mem_listNotes h rest]

end

private theorem Expr.distance_mem_optionNotes (h : sight.Sees regions)
    (expr : Option Expr) :
    Note.distance id d ∈ optionNotes sight expr ↔
      Finds (optionSites regions expr) (Note.distance id d) := by
  cases expr with
  | none => simp [optionNotes, optionSites]
  | some expr => exact expr.distance_mem_notes h false

/-- The name of a class does not matter to the lookup of a superclass of another
name. -/
private theorem Expr.distance_mem_superclass_notes (h : sight.Sees regions)
    {superclass : Expr} (hvar : superclass.isVar = true)
    (hname : superclass.name? ≠ some name) :
    Note.distance id d ∈ superclass.notes (sight.declare [name]) ↔
      Finds (superclass.sites regions false) (Note.distance id d) := by
  rw [superclass.distance_mem_notes (h.declare [name]) false]
  cases superclass with
  | var span id' other =>
    have hother : other ∉ [name] := by
      intro hmem
      exact hname (congrArg some (mem_singleton.1 hmem))
    simp [sites, Site.finding?, Regions.distance?_declare_of_not_mem hother]
  | _ => cases hvar

mutual

/-- In a formed tree without a faulty class, the walk of resolution finds the distances
of the sites. -/
private theorem Stmt.distance_mem_notes {sight : Sight} {regions : Regions}
    (h : sight.Sees regions) :
    ∀ {stmt : Stmt}, stmt.formed = true → stmt.fault? = none →
      (Note.distance id d ∈ stmt.notes sight ↔
        Finds (stmt.sites regions) (Note.distance id d))
  | .block span body, hformed, hfault => by
    simp only [Stmt.formed] at hformed
    simp only [Stmt.fault?] at hfault
    simp only [Stmt.notes, Stmt.sites]
    exact Stmt.distance_mem_listNotes (h.enter _ _) hformed hfault
  | .funcDecl _ decl, hformed, hfault => by
    simp only [Stmt.formed] at hformed
    simp only [Stmt.fault?] at hfault
    simp [Stmt.notes, Stmt.sites, Site.finding?,
      FunctionDecl.distance_mem_notes (h.declare [decl.name.node]) hformed hfault]
  | .classDecl _ decl, hformed, hfault => by
    simp only [Stmt.formed] at hformed
    simp only [Stmt.fault?] at hfault
    simp only [Stmt.notes, Stmt.sites]
    exact ClassDecl.distance_mem_notes h hformed hfault
  | .branch _ cond onTrue none, hformed, hfault => by
    simp only [Stmt.formed, Bool.and_eq_true] at hformed
    simp only [Stmt.fault?] at hfault
    simp [Stmt.notes, Stmt.sites, cond.distance_mem_notes h false,
      Stmt.distance_mem_notes h hformed.2 hfault]
  | .branch _ cond onTrue (some onFalse), hformed, hfault => by
    simp only [Stmt.formed, Bool.and_eq_true] at hformed
    simp only [Stmt.fault?, Option.or_eq_none_iff] at hfault
    have hfalse := h.declare onTrue.declared
    rw [Stmt.declared_of_isBlock hformed.1.1, Regions.declare_nil] at hfalse
    simp [Stmt.notes, Stmt.sites, cond.distance_mem_notes h false,
      Stmt.declared_of_isBlock hformed.1.1, Stmt.distance_mem_notes h
        hformed.1.2 hfault.1,
      Stmt.distance_mem_notes hfalse hformed.2.2 hfault.2]
  | .print _ _ operand, _, _ => by
    simp only [Stmt.notes, Stmt.sites]
    exact Expr.distance_mem_optionNotes h operand
  | .ret _ operand, _, _ => by
    simp only [Stmt.notes, Stmt.sites]
    exact Expr.distance_mem_optionNotes h operand
  | .brk _, _, _ => by simp [Stmt.notes, Stmt.sites]
  | .var _ name init, _, _ => by
    simp [Stmt.notes, Stmt.sites, Site.finding?, Expr.distance_mem_optionNotes h init]
  | .loop _ cond body, hformed, hfault => by
    simp only [Stmt.formed, Bool.and_eq_true] at hformed
    simp only [Stmt.fault?] at hfault
    simp [Stmt.notes, Stmt.sites, cond.distance_mem_notes h false,
      Stmt.distance_mem_notes h hformed.2 hfault]
  | .expression _ expr, _, _ => by
    simp only [Stmt.notes, Stmt.sites]
    exact expr.distance_mem_notes h false

private theorem Stmt.distance_mem_listNotes {sight : Sight} {regions : Regions}
    (h : sight.Sees regions) :
    ∀ {body : List Stmt}, Stmt.listFormed body = true → Stmt.listFault? body = none →
      (Note.distance id d ∈ Stmt.listNotes sight body ↔
        Finds (Stmt.listSites regions body) (Note.distance id d))
  | [], _, _ => by simp [Stmt.listNotes, Stmt.listSites]
  | stmt :: rest, hformed, hfault => by
    simp only [Stmt.listFormed, Bool.and_eq_true] at hformed
    simp only [Stmt.listFault?, Option.or_eq_none_iff] at hfault
    simp [Stmt.listNotes, Stmt.listSites, Stmt.distance_mem_notes h hformed.1 hfault.1,
      Stmt.distance_mem_listNotes (h.declare stmt.declared) hformed.2 hfault.2]

private theorem FunctionDecl.distance_mem_notes {sight : Sight} {regions : Regions}
    (h : sight.Sees regions) :
    ∀ {decl : FunctionDecl}, decl.formed = true → decl.fault? = none →
      (Note.distance id d ∈ decl.notes sight ↔
        Finds (decl.sites regions) (Note.distance id d))
  | .mk name params body span, hformed, hfault => by
    simp only [FunctionDecl.formed] at hformed
    simp only [FunctionDecl.fault?] at hfault
    simp only [FunctionDecl.notes, FunctionDecl.sites, finds_append,
      finds_params, false_or]
    exact Stmt.distance_mem_listNotes (h.enter _ _) hformed hfault

private theorem ClassDecl.distance_mem_notes {sight : Sight} {regions : Regions}
    (h : sight.Sees regions) :
    ∀ {decl : ClassDecl}, decl.formed = true → decl.fault? = none →
      (Note.distance id d ∈ decl.notes (sight.declare [decl.name.node]) ↔
        Finds (decl.sites regions) (Note.distance id d))
  | .mk name none methods span, hformed, hfault => by
    simp only [ClassDecl.formed] at hformed
    simp only [ClassDecl.fault?] at hfault
    simp [ClassDecl.notes, ClassDecl.sites, ClassDecl.name, Site.finding?,
      FunctionDecl.distance_mem_listNotes (h.declare [name.node]) hformed hfault]
  | .mk name (some superclass) methods span, hformed, hfault => by
    simp only [ClassDecl.formed, Bool.and_eq_true] at hformed
    simp only [ClassDecl.fault?, Option.or_eq_none_iff] at hfault
    have hname : superclass.name? ≠ some name.node := by
      intro hname
      simp [ClassDecl.ownFault?, hname] at hfault
    have hsuper : (sight.declare [name.node]).enter ["super"] |>.Sees
        (⟨.superclass (.mk name (some superclass) methods span), ["super"]⟩ ::
          regions.declare [name.node]) :=
      (h.declare [name.node]).enter _ _
    simp [ClassDecl.notes, ClassDecl.sites, ClassDecl.name, Site.finding?,
      Expr.distance_mem_superclass_notes h hformed.1 hname,
      FunctionDecl.distance_mem_listNotes hsuper hformed.2 hfault.2]

private theorem FunctionDecl.distance_mem_listNotes {sight : Sight} {regions : Regions}
    (h : sight.Sees regions) :
    ∀ {methods : List FunctionDecl}, FunctionDecl.listFormed methods = true →
      FunctionDecl.listFault? methods = none →
      (Note.distance id d ∈ FunctionDecl.listNotes (sight.enter ["this"]) methods ↔
        Finds (FunctionDecl.methodSites regions methods) (Note.distance id d))
  | [], _, _ => by simp [FunctionDecl.listNotes, FunctionDecl.methodSites]
  | decl :: rest, hformed, hfault => by
    simp only [FunctionDecl.listFormed, Bool.and_eq_true] at hformed
    simp only [FunctionDecl.listFault?, Option.or_eq_none_iff] at hfault
    simp [FunctionDecl.listNotes, FunctionDecl.methodSites,
      FunctionDecl.distance_mem_notes (h.enter (.receiver decl) ["this"])
        hformed.1 hfault.1,
      FunctionDecl.distance_mem_listNotes h hformed.2 hfault.2]

end

end Findings

/-! ## Recorded distances -/

namespace Resolution

private theorem distance_mem_of_foldl {d : Nat}
    (h : (notes.foldl note resolution).distance? id = some d) :
    Note.distance id d ∈ notes ∨ resolution.distance? id = some d := by
  induction notes generalizing resolution with
  | nil => exact .inr h
  | cons first rest ih =>
    rcases ih h with hrest | hfirst
    · exact .inl (mem_cons_of_mem _ hrest)
    · cases first with
      | nativeCall id' => exact .inr hfirst
      | distance id' d' =>
        by_cases hid : id' = id
        · subst hid
          have hd : d' = d := by
            simpa [note, distance?] using hfirst
          exact .inl (hd ▸ mem_cons_self)
        · refine .inr ?_
          have hcmp : compare id' id ≠ .eq := by simpa using hid
          simpa [note, distance?, Std.TreeMap.getElem?_insert, hcmp] using hfirst

private theorem isSome_foldl_of_mem {id : NodeId}
    (h : (∃ d, Note.distance id d ∈ notes) ∨ (resolution.distance? id).isSome = true) :
    ((notes.foldl note resolution).distance? id).isSome = true := by
  induction notes generalizing resolution with
  | nil =>
    rcases h with ⟨d, hmem⟩ | h
    · cases hmem
    · exact h
  | cons first rest ih =>
    refine ih ?_
    rcases h with ⟨d, hmem⟩ | h
    · rcases mem_cons.1 hmem with rfl | hrest
      · exact .inr (by simp [note, distance?])
      · exact .inl ⟨d, hrest⟩
    · refine .inr ?_
      cases first with
      | nativeCall id' => exact h
      | distance id' d' =>
        by_cases hid : compare id' id = .eq
        · simp [note, distance?, hid]
        · simpa [note, distance?, Std.TreeMap.getElem?_insert, hid] using h

/-- Where a node has one distance among the findings at most, that one is recorded. -/
theorem distance?_ofNotes {o : Option Nat}
    (h : ∀ d, Note.distance id d ∈ notes ↔ o = some d) :
    (ofNotes notes).distance? id = o := by
  cases hd : (ofNotes notes).distance? id with
  | some d =>
    rcases distance_mem_of_foldl hd with hmem | hempty
    · exact ((h d).1 hmem).symm
    · simp [empty, distance?] at hempty
  | none =>
    cases o with
    | none => rfl
    | some d =>
      have hsome := @isSome_foldl_of_mem notes empty id (.inl ⟨d, (h d).2 rfl⟩)
      rw [ofNotes] at hd
      simp [hd] at hsome

end Resolution

/-- Where no two entries have one image, an entry is known by its image. -/
theorem eq_of_nodup_filterMap {α β : Type} {f : α → Option β} {entries : List α}
    (h : (entries.filterMap f).Nodup) {a b : α} {x : β} (ha : a ∈ entries)
    (hb : b ∈ entries) (hax : f a = some x) (hbx : f b = some x) : a = b := by
  induction entries with
  | nil => cases ha
  | cons first rest ih =>
    have hrest : (rest.filterMap f).Nodup := by
      cases hf : f first with
      | none => simpa [filterMap_cons, hf] using h
      | some y => exact (nodup_cons.1 (by simpa [filterMap_cons, hf] using h)).2
    -- The image of the first entry is not among those of the others.
    have hfirst : ∀ c ∈ rest, f first = some x → f c = some x → False := by
      intro c hc hfx hcx
      have hnot : x ∉ rest.filterMap f :=
        (nodup_cons.1 (by simpa [filterMap_cons, hfx] using h)).1
      exact hnot (mem_filterMap.2 ⟨c, hc, hcx⟩)
    rcases mem_cons.1 ha with rfl | ha' <;> rcases mem_cons.1 hb with rfl | hb'
    · rfl
    · exact (hfirst b hb' hax hbx).elim
    · exact (hfirst a ha' hbx hax).elim
    · exact ih hrest ha' hb'

namespace Program

variable {program : Program} {natives : String → Bool} {globals : List String}
  {resolution : Resolution}

/-- Resolution records for a reference the distance that its regions give, and nothing
where they give none. -/
theorem distance?_of_site (hformed : Stmt.listFormed program.stmts = true)
    (hids : program.ids.Nodup)
    (hresolve : program.resolve natives globals = .ok resolution) {site : Site}
    (hsite : site ∈ program.sites) (hrefers : site.mention.Refers id name) :
    resolution.distance? id = site.regions.distance? name := by
  unfold resolve at hresolve
  split at hresolve
  · cases hresolve
  · rename_i hfault
    have hsees : (program.sight natives globals).Sees [] := rfl
    have hid : site.id? = some id := by
      rcases hrefers with h | h <;> simp [Site.id?, h]
    have hfinding : site.finding? =
        (site.regions.distance? name).map (Note.distance id) := by
      rcases hrefers with h | h <;> simp [Site.finding?, h]
    obtain rfl := Except.ok.inj hresolve
    refine Resolution.distance?_ofNotes fun d => ?_
    rw [Stmt.distance_mem_listNotes hsees hformed hfault]
    constructor
    · rintro ⟨other, hother, hfound⟩
      -- A site with a finding about the node has its number, so it is this site.
      have hid' : other.id? = some id := by
        unfold Site.finding? at hfound
        unfold Site.id?
        split at hfound <;> simp_all
      have hnodup : (program.sites.filterMap Site.id?).Nodup := by
        rw [sites, Stmt.ids_listSites]
        exact hids
      obtain rfl := eq_of_nodup_filterMap hnodup hother hsite hid' hid
      rw [hfinding] at hfound
      obtain ⟨d', hd', heq⟩ := Option.map_eq_some_iff.1 hfound
      cases heq
      exact hd'
    · intro hd
      exact ⟨site, hsite, by rw [hfinding, hd, Option.map_some]⟩

end Program

end Treewalk
