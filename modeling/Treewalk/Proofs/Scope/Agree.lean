import Treewalk.Proofs.Machine.Deliver
import Treewalk.Proofs.Scope.Findings
import Treewalk.Proofs.Scope.Preserve
import Treewalk.Proofs.Tree.Numbering
import Treewalk.Proofs.Tree.Sound

/-!
# The resolver and the machine agree on scopes

The resolver walks over the text with a stack of scopes; the machine makes scopes as it
runs and links each to those around it. The two meet in the invariant `Standing`: it
holds at the start of a run, each transition keeps it or fails (`Standing.step`), and a
failure only unwinds from then on. So whenever a run is about to look up a name for
which the resolver recorded a distance, the environment is the one that the resolver saw
(`FoundAt`): link by link its scopes were made for what the resolver entered, and the
scope at the recorded distance is the one in which the resolver found the name, and
binds it.

## Main results

* `Standing.start`: the start of a run.
* `Traced.standing`: every state of a run.
* `Machine.scopes_agree`: the environments of all lookups, and what the errors of a run
  can be.
-/

namespace Treewalk

open List

variable {plan : List Site} {origins : List Origin} {program : Program}
  {natives : List Native} {regions : Regions}

/-! ## The start of a run -/

namespace Stmt

private theorem listSites_filter_subset (keep : Stmt → Bool) (body : List Stmt) :
    listSites [] (body.filter keep) ⊆ listSites [] body := by
  induction body with
  | nil => exact List.Subset.refl _
  | cons stmt rest ih =>
    by_cases hkeep : keep stmt = true
    · rw [filter_cons_of_pos hkeep]
      simp only [listSites, Regions.declare, append_subset]
      exact ⟨subset_append_left _ _, subset_append_of_subset_right _ ih⟩
    · rw [filter_cons_of_neg hkeep]
      exact subset_append_of_subset_right _ ih

private theorem listFormed_filter (keep : Stmt → Bool) {body : List Stmt}
    (h : listFormed body = true) :
    listFormed (body.filter keep) = true := by
  induction body with
  | nil => rfl
  | cons stmt rest ih =>
    simp only [listFormed, Bool.and_eq_true] at h
    by_cases hkeep : keep stmt = true
    · rw [filter_cons_of_pos hkeep]
      simp only [listFormed, Bool.and_eq_true]
      exact ⟨h.1, ih h.2⟩
    · rw [filter_cons_of_neg hkeep]
      exact ih h.2

private theorem declaration_of_isEntryPoint {stmt : Stmt}
    (h : stmt.isEntryPoint = true) :
    stmt.isDeclaration = true ∧ entryPoint ∈ stmt.declared := by
  cases stmt with
  | funcDecl span decl =>
    simp only [isEntryPoint, Bool.and_eq_true, beq_iff_eq] at h
    exact ⟨rfl, by simp [declared, h.1]⟩
  | classDecl span decl =>
    simp only [isEntryPoint, beq_iff_eq] at h
    exact ⟨rfl, by simp [declared, h]⟩
  | _ => cases h

end Stmt

theorem Ground.start (plan : List Site) (natives : List Native) :
    Ground plan [.globals] [⟨globalScope, [], false⟩] (.start (.start natives)) where
  size := rfl
  root := rfl
  globals := rfl
  values := .start fun _ _ => trivial
  places act hact := by
    obtain rfl := mem_singleton.1 hact
    exact ⟨rfl, trivial⟩
  depth := rfl

/-- At the start of a run nothing but the program is there. -/
theorem Standing.start {start : Machine}
    (hformed : Stmt.listFormed program.stmts = true)
    (hstart : start = .ofScript (.start natives) program ∨
      start = .ofProgram (.start natives) program) :
    Standing program.sites [.globals] [⟨globalScope, [], false⟩] start := by
  have hscript : Standing program.sites [.globals] [⟨globalScope, [], false⟩]
      (.ofScript (.start natives) program) :=
    ⟨.start _ natives, .flow (fun _ hret => by cases hret)
      (.seq (List.Subset.refl _) hformed .script)⟩
  rcases hstart with rfl | rfl
  · exact hscript
  · unfold Machine.ofProgram
    by_cases hentry : program.hasEntryPoint = true
    · rw [if_pos hentry]
      obtain ⟨stmt, hstmt, hmain⟩ := any_eq_true.1 hentry
      obtain ⟨hdeclaration, hname⟩ := Stmt.declaration_of_isEntryPoint hmain
      refine ⟨.start _ natives, .next ⟨Stmt.listSites_filter_subset _ _,
        Stmt.listFormed_filter _ hformed, fun stmt hmem => (mem_filter.1 hmem).2⟩
        (.inr ⟨stmt, mem_filter.2 ⟨hstmt, hdeclaration⟩, hname⟩)⟩
    · rw [if_neg hentry]
      exact hscript

/-! ## Runs -/

namespace Machine

/-- The error of a run comes from a transition that was excused. -/
def FailedBy (ctx : Context) (start : Machine) (error : RuntimeError) : Prop :=
  ∃ (m : Machine) (origins : List Origin) (first : RuntimeError),
    Traced ctx start m origins ∧ (m.step ctx).control = .fail first ∧
    first.cause = error.cause ∧ Excused (m.MayMiss ctx) error.cause

/-- In every state of a run all code has its place, or the run failed with an excuse. -/
theorem Traced.standing {ctx : Context} {start m : Machine} {acts : List Act}
    (hagrees : Agrees plan ctx.resolution)
    (hstart : Standing plan [.globals] acts start) (h : Traced ctx start m origins) :
    (∃ acts, Standing plan origins acts m) ∨
      ∃ error, m.control = .fail error ∧ FailedBy ctx start error := by
  induction h with
  | start => exact .inl ⟨acts, hstart⟩
  | @step m origins htraced ih =>
    rcases ih with ⟨acts, hstanding⟩ | ⟨error, herror, hfailed⟩
    · rcases hstanding.step hagrees with ⟨error, herror, hexcused⟩ | ⟨acts', hnext, -⟩
      · exact .inr ⟨error, herror, m, origins, error, htraced, herror, rfl, hexcused⟩
      · exact .inl ⟨acts', hnext⟩
    · obtain ⟨error', herror', hcause⟩ := cause_step_of_fail ctx herror
      refine .inr ⟨error', herror', ?_⟩
      unfold FailedBy
      rw [hcause]
      exact hfailed

end Machine

/-! ## Lookups -/

/-- Every scope has an origin, and the environment has the scopes of the regions around
a reference, from the innermost region to the global scope. The scope at the distance is
the one made for the nearest region that declares the name; it binds the name, so that
getting and assigning it there succeed. -/
structure FoundAt (origins : List Origin) (heap : Heap) (regions : Regions)
    (env : ScopeId) (name : String) (distance : Nat) : Prop where
  recorded : origins.length = heap.scopes.size
  nearest : regions.distance? name = some distance
  chain : (heap.chain env).map (origins[·]?) =
    (regions.origins ++ [Origin.globals]).map some
  scope : ∃ scope, heap.ancestor env distance = .ok scope ∧
    origins[scope]? = regions.origins[distance]? ∧ heap.Binds scope name
  get : ∃ value, heap.getAt env distance name = .ok value
  assign : ∀ value, ∃ heap', heap.assignAt env distance name value = .ok heap'

private theorem Fits.origins_eq {log : History} {chain : List ScopeId}
    (h : Fits log regions chain)
    (hglobals : log.origins[globalScope]? = some .globals) :
    chain.map (log.origins[·]?) = (regions.origins ++ [Origin.globals]).map some := by
  induction regions generalizing chain with
  | nil =>
    rw [Fits] at h
    subst h
    simpa [Regions.origins] using hglobals
  | cons region outer ih =>
    cases chain with
    | nil => exact h.elim
    | cons scope chain =>
      have houter := ih h.2.2
      simp only [Regions.origins, map_cons, cons_append, List.cons.injEq]
      exact ⟨h.1, houter⟩

private theorem Place.foundAt {heap : Heap} {env : ScopeId} {name : String}
    {distance : Nat} (h : Place plan ⟨heap, origins⟩ env regions)
    (hsize : origins.length = heap.scopes.size)
    (hglobals : origins[globalScope]? = some .globals)
    (hnearest : regions.distance? name = some distance) :
    FoundAt origins heap regions env name distance := by
  obtain ⟨region, hregion, hname⟩ := Regions.exists_of_distance? hnearest
  obtain ⟨scope, hscope, horigin, hbinds⟩ := h.fits.getElem? hregion
  have hancestor : heap.ancestor env distance = .ok scope := by
    unfold Heap.ancestor
    simp only [show (heap.chain env)[distance]? = some scope from hscope]
  have hbound : heap.Binds scope name := hbinds name hname
  obtain ⟨value, hvalue⟩ := Heap.binds_iff.1 hbound
  refine ⟨hsize, hnearest, h.fits.origins_eq hglobals, ⟨scope, hancestor, ?_, hbound⟩,
    ⟨value, ?_⟩, fun new => ⟨heap.define scope name new, ?_⟩⟩
  · simp only [Regions.origins, List.getElem?_map, hregion, Option.map_some]
    exact horigin
  · simp only [Heap.getAt, hancestor, hvalue]
  · have hslot : heap.slotAt env distance name = .ok scope := by
      simp only [Heap.slotAt, hancestor]
      exact if_pos hbound
    rw [Heap.assignAt, hslot]
    rfl

/-- What a state is about to look up stands in the program, at the place of its
environment. -/
private theorem Standing.exists_site {acts : List Act} {ctx : Context} {m : Machine}
    {id : NodeId} {name : String} {env : ScopeId} (h : Standing plan origins acts m)
    (hrefers : m.Refers ctx id name env) :
    ∃ site ∈ plan, site.mention.Refers id name ∧
      Place plan ⟨m.world.heap, origins⟩ env site.regions := by
  obtain ⟨hground, hcontrol⟩ := h
  have hplace : ∀ act acts', acts = act :: acts' →
      Place plan ⟨m.world.heap, origins⟩ act.env act.regions := by
    intro act acts' hacts
    exact hground.places act (by simp [hacts])
  cases hrefers with
  | var =>
    cases hcontrol with
    | @eval act acts' _ _ hsites _ =>
      simp only [Expr.sites, cons_subset] at hsites
      exact ⟨_, hsites.1, .inl rfl, hplace act acts' rfl⟩
    | lookup hread _ _ _ =>
      exact ⟨_, hread, .inl rfl, hplace ⟨globalScope, [], false⟩ [] rfl⟩
  | assign =>
    cases hcontrol with
    | value _ hstack =>
      cases hstack with
      | @assign act acts' _ _ _ _ hsite _ =>
        exact ⟨_, hsite, .inr rfl, hplace act acts' rfl⟩
  | call _ =>
    cases hcontrol with
    | @eval act acts' _ _ hsites _ =>
      simp only [Expr.sites, append_subset, cons_subset] at hsites
      exact ⟨_, hsites.1.1, .inl rfl, hplace act acts' rfl⟩
  | argument =>
    cases hcontrol with
    | value _ hstack =>
      cases hstack with
      | @argument env' regions inArguments acts' _ _ _ _ _ _ henv hcallee _ _ _ _ =>
        obtain ⟨inArguments', hread⟩ := hcallee
        refine ⟨_, hread, .inl rfl, ?_⟩
        rw [show env = env' from henv]
        exact hplace ⟨env', regions, true⟩ _ rfl

/-- What the resolver records about a parsed program agrees with the sites of the
program. -/
theorem agrees_of_resolve {firstId next : NodeId} {tokens : List (Located Token)}
    {natives : String → Bool} {globals : List String} {resolution : Resolution}
    (hparse : parse firstId tokens = (.ok program, next))
    (hresolve : program.resolve natives globals = .ok resolution) :
    Agrees program.sites resolution := by
  intro site hsite id name hrefers
  have hderives := derives_of_parse hparse
  exact program.distance?_of_site hderives.formed hderives.ids.nodup hresolve
    hsite hrefers

namespace Machine

/-- The resolver and the machine agree on scopes. In every state of a run of a parsed
and resolved program, as a script or from its entry point: a reference with a recorded
distance is looked up in an environment whose scopes were made for the regions around
the reference in the program, and the scope at the distance is the one made for the
region in which the resolver found the name, and binds it. So no run fails for want of a
scope; and one that fails for want of a variable does so in a transition that looks up a
reference without a distance, or `this` or `super`. -/
theorem scopes_agree {firstId next : NodeId} {tokens : List (Located Token)}
    {program : Program} {natives : String → Bool} {enabled : List Native}
    {globals : List String} {ctx : Context} {start m : Machine} {origins : List Origin}
    (hparse : parse firstId tokens = (.ok program, next))
    (hresolve : program.resolve natives globals = .ok ctx.resolution)
    (hstart : start = .ofScript (.start enabled) program ∨
      start = .ofProgram (.start enabled) program)
    (htraced : Traced ctx start m origins) :
    (∀ id name env distance, m.Refers ctx id name env →
      ctx.resolution.distance? id = some distance →
      ∃ site ∈ program.sites, site.mention.Refers id name ∧
        FoundAt origins m.world.heap site.regions env name distance) ∧
    (∀ error, m.control = .fail error →
      (∀ name left, error.cause ≠ .missingScope name left) ∧
      ∀ name known, error.cause = .undefinedVariable name known →
        ∃ (before : Machine) (origins : List Origin) (first : RuntimeError),
          Traced ctx start before origins ∧ (before.step ctx).control = .fail first ∧
          first.cause = error.cause ∧ before.MayMiss ctx name) := by
  have hagrees := agrees_of_resolve hparse hresolve
  have hformed := (derives_of_parse hparse).formed
  rcases htraced.standing hagrees (.start hformed hstart) with
    ⟨acts, hstanding⟩ | ⟨error, herror, before, origins', first, hbefore, hfirst,
      hcause, hexcused⟩
  · constructor
    · intro id name env distance hrefers hdistance
      obtain ⟨site, hsite, hmention, hplace⟩ := hstanding.exists_site hrefers
      rw [hagrees site hsite id name hmention] at hdistance
      exact ⟨site, hsite, hmention,
        hplace.foundAt hstanding.ground.size hstanding.ground.globals hdistance⟩
    · intro error herror
      obtain ⟨-, hcontrol⟩ := hstanding
      rw [herror] at hcontrol
      cases hcontrol
  · constructor
    · intro id name env distance hrefers
      cases hrefers <;> cases herror
    · intro error' herror'
      obtain rfl : error = error' := by
        rw [herror] at herror'
        exact Control.fail.inj herror'
      constructor
      · intro name left hmissing
        rw [hmissing] at hexcused
        exact hexcused
      · intro name known hundefined
        rw [hundefined] at hexcused
        exact ⟨before, origins', first, hbefore, hfirst, hcause, hexcused⟩

/-- A state of a run with the origins of its scopes, by the number of transitions. -/
def tracedAt (ctx : Context) (start : Machine) : Nat → Machine × List Origin
  | 0 => (start, [.globals])
  | n + 1 =>
    let (m, origins) := tracedAt ctx start n
    (m.step ctx, origins ++ m.opened ctx)

private theorem traced_tracedAt (ctx : Context) (start : Machine) (n : Nat) :
    Traced ctx start (tracedAt ctx start n).1 (tracedAt ctx start n).2 := by
  induction n with
  | zero => exact .start
  | succ n ih => exact .step ih

/-- `func keep(x) = { func give() = { return x; } return give; } var g = keep(nil);
g();` -/
def keeperTokens : List (Located Token) :=
  let tokens : List Token :=
    [.word .func, .ident "keep", .sign .lparen, .ident "x", .sign .rparen, .sign .eq,
      .sign .lbrace, .word .func, .ident "give", .sign .lparen, .sign .rparen,
      .sign .eq, .sign .lbrace, .word .ret, .ident "x", .sign .semi, .sign .rbrace,
      .word .ret, .ident "give", .sign .semi, .sign .rbrace,
      .word .var, .ident "g", .sign .eq, .ident "keep", .sign .lparen, .word .nil,
        .sign .rparen,
      .sign .semi, .ident "g", .sign .lparen, .sign .rparen, .sign .semi]
  tokens.zipIdx.map fun (token, i) => ⟨token, ⟨i, i + 1⟩⟩

/-- The function that `keep` gives back. -/
def giveDecl : FunctionDecl :=
  .mk ⟨"give", ⟨8, 9⟩⟩ [] [.ret ⟨13, 16⟩ (some (.var ⟨14, 15⟩ 0 "x"))] ⟨7, 17⟩

def keepDecl : FunctionDecl :=
  .mk ⟨"keep", ⟨1, 2⟩⟩ [⟨"x", ⟨3, 4⟩⟩]
    [.funcDecl ⟨7, 17⟩ giveDecl, .ret ⟨17, 20⟩ (some (.var ⟨18, 19⟩ 1 "give"))] ⟨0, 21⟩

/-- The tree of the tokens. -/
def keeper : Program :=
  ⟨[.funcDecl ⟨0, 21⟩ keepDecl,
    .var ⟨21, 29⟩ ⟨"g", ⟨22, 23⟩⟩
      (some (.call ⟨24, 28⟩ 3 (.var ⟨24, 25⟩ 2 "keep") [.literal ⟨26, 27⟩ .nil])),
    .expression ⟨29, 33⟩ (.call ⟨29, 32⟩ 5 (.var ⟨29, 30⟩ 4 "g") [])]⟩

/-- What is resolved about it, with no capabilities and calls nested at most five
times. -/
def keeperContext : Context :=
  ⟨.frames, ⟨.function, .value, 5⟩, [], .ofNotes [.distance 0 1, .distance 1 0],
    .silent⟩

/-- `x` is read in `give`, which was called after `keep` returned: one scope out of the
scope of the call stands the one made for the call of `keep`. -/
theorem scopes_agree_keeper :
    let start := ofScript (.start []) keeper
    let (m, origins) := tracedAt keeperContext start 22
    parse 0 keeperTokens = (.ok keeper, 6) ∧
      keeper.resolve (Native.enabled []) [] = .ok keeperContext.resolution ∧
      Traced keeperContext start m origins ∧ m.Refers keeperContext 0 "x" 2 ∧
      keeperContext.resolution.distance? 0 = some 1 ∧
      ∃ site ∈ keeper.sites, site.mention.Refers 0 "x" ∧
        FoundAt origins m.world.heap site.regions 2 "x" 1 := by
  have hparse : parse 0 keeperTokens = (.ok keeper, 6) := rfl
  have hresolve : keeper.resolve (Native.enabled []) [] =
    .ok keeperContext.resolution := rfl
  have htraced := traced_tracedAt keeperContext (ofScript (.start []) keeper) 22
  have hrefers : (tracedAt keeperContext (ofScript (.start []) keeper) 22).1.Refers
    keeperContext
      0 "x" 2 := .var
  refine ⟨hparse, hresolve, htraced, hrefers, rfl, ?_⟩
  exact (scopes_agree hparse hresolve (.inl rfl) htraced).1 0 "x" 2 1 hrefers rfl

end Machine

end Treewalk
