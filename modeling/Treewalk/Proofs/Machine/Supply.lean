import Treewalk.Proofs.Machine.Regime
import Treewalk.Proofs.Machine.Writes

/-!
# Runs stay within their stock

What a transition adds to a state is taken from code that was there, made of values that
were there, or answered by an operator or a capability. So if a property of contents is
handed on in these ways (`Content.Closed`), then all contents of a run have it when
those of its start have it: demands on contents are a regime (`Content.regime`).

A stock that suits its context is such a property, so a run never leaves it:
`Stock.Supplies.step` for one transition and `Stock.Supplies.of_reaches` for all of
them.
-/

namespace Treewalk

open List

variable {stmt : Stmt} {origins : List Origin} {name : String} {env : ScopeId}

/-- The class that a declaration makes in a heap. -/
def Machine.classOf (heap : Heap) (env : ScopeId) (decl : ClassDecl)
    (superclass : Option Class) : Class :=
  let heap := heap.define env decl.name.node .nothing
  let (methodEnv, heap) := match superclass with
    | some superclass => heap.makeChild env [("super", .cls superclass)]
    | none => (env, heap)
  (heap.makeClass decl.name.node superclass decl.methods methodEnv).1

/-- The statements that a task runs, in the global scope. -/
def Task.stmts : Task → List Stmt
  | .evaluate expr => [.expression expr.span expr]
  | .script program => program.stmts
  | .run program => program.stmts

/-! ## Pieces of statements -/

private theorem Stmt.parts_subset_of_operand {expr : Expr} (h : expr ∈ stmt.operands) :
    expr.parts ⊆ stmt.parts := by
  cases stmt with
  | classDecl span decl =>
    rw [Stmt.parts, ClassDecl.parts_eq, Option.mem_toList.1 h]
    exact subset_append_left _ _
  | branch span cond onTrue onFalse =>
    obtain rfl := mem_singleton.1 h
    cases onFalse <;> (rw [Stmt.parts]; exact subset_append_left _ _)
  | print span newline operand =>
    rw [Stmt.parts, Option.mem_toList.1 h]; exact List.Subset.refl _
  | ret span operand => rw [Stmt.parts, Option.mem_toList.1 h]; exact List.Subset.refl _
  | var span name init =>
    rw [Stmt.parts, Option.mem_toList.1 h]; exact List.Subset.refl _
  | loop span cond body =>
    obtain rfl := mem_singleton.1 h
    rw [Stmt.parts]
    exact subset_append_left _ _
  | expression span expr =>
    obtain rfl := mem_singleton.1 h
    rw [Stmt.parts]
    exact List.Subset.refl _
  | _ => cases h

private theorem Stmt.contents_subset_of_branch {part : Stmt} (h : part ∈ stmt.branches)
    (env : ScopeId) :
    part.contents env ⊆ stmt.contents env := by
  have hboth : part.parts ⊆ stmt.parts ∧ part.declared ⊆ stmt.declared := by
    cases stmt with
    | branch span cond onTrue onFalse =>
      rcases mem_cons.1 h with rfl | h
      · cases onFalse <;> simp [Stmt.parts, Stmt.declared]
      · rw [Option.mem_toList.1 h]
        simp [Stmt.parts, Stmt.declared]
    | loop span cond body =>
      obtain rfl := mem_singleton.1 h
      simp [Stmt.parts, Stmt.declared]
    | _ => cases h
  exact append_subset.2 ⟨subset_append_of_subset_left _ (map_subset _ hboth.1),
    subset_append_of_subset_right _ (map_subset _ hboth.2)⟩

private theorem Stmt.mem_declared_of_mem_binds (h : name ∈ stmt.binds) :
    name ∈ stmt.declared := by
  cases stmt with
  | funcDecl span decl => exact h
  | classDecl span decl => exact h
  | var span name init => exact h
  | _ => cases h

/-! ## Demands on contents -/

namespace Content

open Machine

variable {H : Content → Prop} {ground : Nat}
  {made : World → ScopeId → ClassDecl → Option Class → Prop}

/-- The regime that asks a property of all contents, in worlds that have so many
scopes. -/
def regime (H : Content → Prop) (ground : Nat)
    (made : World → ScopeId → ClassDecl → Option Class → Prop) : Regime where
  base := []
  world _ _ world :=
    world.Holds (fun value => H (.value value)) ∧ ground ≤ world.heap.scopes.size
  expr _ _ expr := ∀ content ∈ expr.parts.map .code, H content
  stmt _ env stmt := ∀ content ∈ stmt.contents env, H content
  value _ value := H (.value value)
  scope _ := True
  declares env name := H (.declares env name)
  assigns _ name := H (.assigns name)
  capability name := H (.capability name)
  cause cause := H (.cause cause)
  place _ := True
  heir _ := True
  made := made

/-- The property is handed on from contents to what is made of them. -/
structure Closed (H : Content → Prop) (ground : Nat)
    (made : World → ScopeId → ClassDecl → Option Class → Prop)
    (ctx : Context) : Prop where
  marked : ∀ {span id access calleeId name args},
    H (.code (.call span id (.var access calleeId name) args)) →
    ctx.resolution.isNativeCall id = true → H (.capability name)
  assigns : ∀ {span id name value}, H (.code (.assign span id name value)) →
    H (.assigns name)
  declares : ∀ {env} name, ground ≤ env → H (.declares env name)
  plain : ∀ {value}, value.isComparable = true → H (.value value)
  function : ∀ {function}, H (.value (.callable (.function function))) ↔
    ∀ expr ∈ function.decl.parts, H (.code expr)
  method : ∀ {cls name method}, H (.value (.cls cls)) →
    cls.findMethod? name = some method → H (.value (.callable (.function method)))
  inst : ∀ {inst}, H (.value (.inst inst)) ↔ H (.value (.cls inst.cls))
  wrapped : ∀ {cls}, H (.value (.callable (.cls cls))) → H (.value (.cls cls))
  native : ∀ {native}, H (.value (.callable (.native native))) →
    H (.capability native.name)
  fault : ∀ {stamp fault}, ctx.settings.faultPolicy = .value →
    H (.value (.fault stamp fault))
  raised : ∀ {cause}, cause.isFault = false → H (.cause cause)
  failure : ∀ {name message}, ctx.settings.faultPolicy = .error →
    H (.cause (.nativeFault name message))
  cls : ∀ {world env decl superclass}, made world env decl superclass →
    (∀ cls ∈ superclass, H (.value (.cls cls))) →
      (∀ expr ∈ decl.parts, H (.code expr)) →
      H (.value (.cls (classOf world.heap env decl superclass)))

private theorem change {depth : Nat} {opened : List Origin} {old new : World}
    (hworld : (regime H ground made).world depth origins old)
    (hnew : new.Holds fun value => H (.value value))
    (hedits : old.heap.Edits (fun _ _ => True) new.heap) :
    (regime H ground made).Change depth origins old opened new :=
  ⟨⟨hnew, Nat.le_trans hworld.2 hedits.size_le⟩, id, id, id⟩

namespace Closed

variable {ctx : Context} (h : Closed H ground made ctx) {world : World}
  (hworld : world.Holds fun value => H (.value value))

include h

private theorem stmts (henv : ground ≤ env) {body : List Stmt}
    (hbody : ∀ expr ∈ Stmt.listParts body, H (.code expr)) :
    ∀ stmt ∈ body, ∀ content ∈ stmt.contents env, H content := by
  intro stmt hstmt
  refine forall_mem_append.2
    ⟨forall_mem_map.2 fun expr hexpr => ?_, forall_mem_map.2 fun name _ => ?_⟩
  · exact hbody expr (Stmt.parts_subset_listParts hstmt hexpr)
  · exact h.declares name henv

include hworld

private theorem holds_bind {method : Function} {receiver : Value}
    (hmethod : H (.value (.callable (.function method))))
    (hreceiver : H (.value receiver)) :
    (world.bind method receiver).2.Holds (fun value => H (.value value)) ∧
      H (.value (world.bind method receiver).1) := by
  have hchild :=
    hworld.heap.makeChild method.closure (Table.Holds.nil.put "this" hreceiver)
  have hcode := h.function.1 hmethod
  exact ⟨⟨⟨hchild.scopes, hchild.fields⟩, hworld.frames⟩, h.function.2 hcode⟩

omit h in
private theorem holds_assign (slots : Slots) (name : String) {value : Value}
    (hvalue : H (.value value)) :
    (world.assign slots name value).Holds fun value => H (.value value) := by
  have hframes : World.Holds (fun value => H (.value value))
      ⟨world.heap, if slots.frame then world.frames.add name value else world.frames,
        world.output⟩ := by
    split
    · exact hworld.add name hvalue
    · exact hworld
  obtain ⟨frame, scope⟩ := slots
  cases scope with
  | none => exact hframes
  | some scope => exact ⟨hframes.heap.define scope name hvalue, hframes.frames⟩

/-- With or without a scope for `super`, a class is made in a heap that holds nothing
else. -/
private theorem holds_declareClass {decl : ClassDecl} {superclass : Option Class}
    (hsuper : ∀ cls ∈ superclass, H (.value (.cls cls)))
    (hcls : H (.value (.cls (classOf world.heap env decl superclass)))) :
    (declareClass world [] env decl superclass).world.Holds fun value =>
      H (.value value) := by
  have hcleared :=
    hworld.heap.define env decl.name.node (h.plain rfl : H (.value .nothing))
  have hdeclared : ∀ {heap : Heap} (closure : ScopeId),
    heap.Holds (fun value => H (.value value)) →
      let made := heap.makeClass decl.name.node superclass decl.methods closure
      H (.value (.cls made.1)) → World.Holds (fun value => H (.value value))
        ⟨made.2.define env decl.name.node (.cls made.1),
          world.frames.add decl.name.node (.cls made.1), world.output⟩ := by
    intro heap closure hheap made hcls
    exact ⟨(hheap.makeClass _ _ _ _).define env _ hcls, (hworld.add _ hcls).frames⟩
  cases superclass with
  | none => exact hdeclared env hcleared hcls
  | some superclass =>
    exact hdeclared _
      (hcleared.makeChild env (Table.Holds.nil.put "super" (hsuper superclass rfl)))
      hcls

omit hworld

private theorem upheld : (regime H ground made).Upheld ctx where
  part hexpr hpart :=
    forall_mem_map.2 fun _ hmem =>
    hexpr _ (mem_map_of_mem (Expr.closed_parts _ hpart hmem))
  span _ := trivial
  sight _ := trivial
  target hexpr := h.assigns (hexpr _ (mem_map_of_mem (Expr.self_mem_parts _)))
  marked hexpr := h.marked (hexpr _ (mem_map_of_mem (Expr.self_mem_parts _)))
  operand hstmt hexpr := forall_mem_map.2 fun _ hmem =>
    hstmt _
      (mem_append_left _ (mem_map_of_mem (Stmt.parts_subset_of_operand hexpr hmem)))
  branch hstmt hpart _ hmem := hstmt _ (Stmt.contents_subset_of_branch hpart _ hmem)
  name hstmt hname :=
    hstmt _ (mem_append_right _ (mem_map_of_mem (Stmt.mem_declared_of_mem_binds hname)))
  heir _ := trivial
  plain := h.plain
  wrapped := h.wrapped
  native := h.native
  fault := h.fault
  raised := h.raised
  failure := h.failure
  read hworld _ hread := hworld.1.read hread
  main hworld hmain := hworld.1.readGlobal hmain
  this hworld _ hthis := hworld.1.heap.lookup? hthis
  receiver hworld _ hthis := hworld.1.heap.getAt hthis
  field hworld _ hfield := (hworld.1.heap.fieldsOf _).get? hfield
  push name hworld := ⟨hworld.1.push name, hworld.2⟩
  pop _ hworld := ⟨hworld.1.pop, hworld.2⟩
  print _ hworld := ⟨⟨hworld.1.heap, hworld.1.frames⟩, hworld.2⟩
  arguments hworld hargs := ⟨hworld.1.addNamed hargs, hworld.2⟩
  draw hworld :=
    change hworld ⟨⟨hworld.1.heap.scopes, hworld.1.heap.fields⟩, hworld.1.frames⟩
    (.draw .none)
  declare hworld _ hvalue :=
    change hworld ⟨hworld.1.heap.define _ _ hvalue, (hworld.1.add _ hvalue).frames⟩
      (.define .none trivial _)
  assign hworld _ _ hslots hvalue := change hworld (holds_assign hworld.1 _ _ hvalue)
    (edits_assign hslots (fun _ _ => trivial) _)
  setField _ hworld _ hvalue :=
    change hworld ⟨hworld.1.heap.setField _ _ hvalue, hworld.1.frames⟩
    (.setField .none _ _ _)
  block hworld hstmt := by
    refine ⟨change hworld ⟨hworld.1.heap.makeChild _ .nil, hworld.1.frames⟩
      (.makeChild .none _ _), h.stmts hworld.2 ?_⟩
    exact fun expr hexpr =>
      hstmt _ (mem_append_left _ (mem_map_of_mem (by rwa [Stmt.parts])))
  function hworld hstmt := by
    have hdrawn : Heap.Holds (fun value => H (.value value)) (Heap.draw _).2 :=
      ⟨hworld.1.heap.scopes, hworld.1.heap.fields⟩
    refine change hworld ⟨hdrawn.define _ _ (h.function.2 fun expr hexpr => ?_),
      hworld.1.frames⟩ (.define (.draw .none) trivial _)
    exact hstmt _ (mem_append_left _ (mem_map_of_mem (by rwa [Stmt.parts])))
  declareClass hworld hstmt _ hsuper hmade := by
    have hparts := (forall_mem_append.1 hstmt).1
    rw [Stmt.parts] at hparts
    have hcls :=
      h.cls hmade (fun cls hcls => (hsuper cls hcls).2) (forall_mem_map.1 hparts)
    exact change hworld
      (holds_declareClass h hworld.1 (fun cls hcls => (hsuper cls hcls).2) hcls)
      (edits_declareClass trivial _)
  call hworld hfunction hargs := by
    refine ⟨change hworld ⟨hworld.1.heap.makeChild _ (.zip _ hargs), hworld.1.frames⟩
      (.makeChild .none _ _), h.stmts hworld.2 ?_⟩
    rw [FunctionDecl.listParts_body]
    exact h.function.1 hfunction
  construct cls hworld hcls :=
    ⟨change hworld ⟨hworld.1.heap.makeInstance cls, hworld.1.frames⟩
      (.makeInstance .none cls), h.inst.2 hcls⟩
  bind hworld hinst hmethod :=
    have hbound := h.holds_bind hworld.1 (h.method (h.inst.1 hinst) hmethod) hinst
    ⟨change hworld hbound.1 (Heap.Edits.bind .none _ _), hbound.2⟩
  super hworld _ hmethod := by
    obtain ⟨superclass, hsuper, hthis, hfound⟩ := World.superMethod_eq_ok_iff.1 hmethod
    have hbound :=
      h.holds_bind hworld.1 (h.method (hworld.1.heap.lookup? hsuper) hfound)
      (hworld.1.heap.lookup? hthis)
    exact ⟨change hworld hbound.1 (Heap.Edits.bind .none _ _), hbound.2⟩

end Closed

/-! ## States -/

private theorem hasControl_iff {log : History} {control : Control} :
    (regime H ground made).HasControl log control ↔ ∀ content ∈ control.contents,
      H content := by
  cases control with
  | flow flow => cases flow <;> simp [Regime.HasControl, Control.contents, regime]
  | _ => simp [Regime.HasControl, Control.contents, regime]

private theorem hasEntry_iff {log : History} {entry : Pending} :
    (regime H ground made).HasEntry log entry ↔ ∀ content ∈ entry.contents,
      H content := by
  cases entry with
  | argument call done current rest =>
    obtain ⟨span, name, callee, env⟩ := call
    simp only [Regime.HasEntry, Regime.HasCall, Pending.contents, Call.contents, regime,
      Expr.listParts_eq_flatMap, map_flatMap, forall_mem_append, forall_mem_flatMap,
      forall_mem_map, true_and, and_assoc]
    cases callee <;> simp
  | receiver span access name args env =>
    simp only [Regime.HasEntry, Pending.contents, regime, Expr.listParts_eq_flatMap,
      map_flatMap, forall_mem_flatMap, true_and]
  | seq rest env =>
    simp only [Regime.HasEntry, Pending.contents, Stmt.listContents, regime,
      forall_mem_flatMap]
  | branch onTrue onFalse env =>
    cases onFalse <;>
      simp [Regime.HasEntry, Pending.contents, regime, or_imp, forall_and]
  | superclass span decl env =>
    simp only [Regime.HasEntry, Pending.contents, Stmt.contents, Stmt.parts,
      Stmt.declared, regime, forall_mem_append, forall_mem_map, forall_mem_cons]
    simp [and_comm]
  | _ => simp [Regime.HasEntry, Pending.contents, regime, or_imp, forall_and]

private theorem governs_iff {m : Machine} : (regime H ground made).Governs origins m ↔
    (∀ content ∈ m.contents, H content) ∧ ground ≤ m.world.heap.scopes.size := by
  have hpending : (regime H ground made).Waits ⟨m.world.heap, origins⟩ m.pending ↔
      ∀ content ∈ m.pending.flatMap Pending.contents, H content := by
    simp only [Regime.Waits, regime, append_nil, exists_eq_left', forall_mem_flatMap]
    exact forall₂_congr fun _ _ => hasEntry_iff
  rw [Machine.contents, forall_mem_append, forall_mem_append, World.forall_contents,
    ← hasControl_iff, ← hpending]
  exact ⟨fun h => ⟨⟨h.world.1, h.control, h.pending⟩, h.world.2⟩, fun h =>
    ⟨⟨h.1.1, h.2⟩, h.1.2.1, h.1.2.2⟩⟩

/-- What is handed on from contents to contents, a transition hands on. -/
theorem Closed.step {ctx : Context} {m : Machine} (h : Closed H ground made ctx)
    (hmade : ∀ env decl superclass, DeclaresClass env decl superclass m →
      made m.world env decl superclass) (hall : ∀ content ∈ m.contents, H content)
    (hground : ground ≤ m.world.heap.scopes.size) :
    (∀ content ∈ (m.step ctx).contents, H content) ∧
      ground ≤ (m.step ctx).world.heap.scopes.size := by
  have hgoverns : (regime H ground made).Governs [] m := governs_iff.2 ⟨hall, hground⟩
  exact governs_iff.1 (hgoverns.step h.upheld (fun _ => id) hmade)

theorem forall_task {heap : Heap} {task : Task}
    (hheap : ∀ content ∈ heap.contents, H content)
    (htask : ∀ content ∈ Stmt.listContents globalScope task.stmts, H content) :
    ∀ content ∈ (task.machine heap).contents, H content := by
  have hframes : (World.start heap).contents = heap.contents := by
    simp [World.start, World.contents, Frames.contents, Frames.empty, Table.contents]
  have hmachine : ∀ {control : Control} {pending : List Pending},
      (∀ content ∈ control.contents ++ pending.flatMap Pending.contents, H content) →
        ∀ content ∈ Machine.contents ⟨World.start heap, control, pending⟩,
          H content := by
    intro control pending hrest
    rw [Machine.contents, hframes]
    exact forall_mem_append.2 ⟨hheap, hrest⟩
  have hbody : ∀ {body : List Stmt} {rest : List Pending},
    (∀ content ∈ Stmt.listContents globalScope body, H content) →
      (∀ content ∈ rest.flatMap Pending.contents, H content) →
        ∀ content ∈ Machine.contents ⟨World.start heap, .flow .normal,
          .seq body globalScope :: rest⟩, H content :=
    fun hbody hrest => hmachine (forall_mem_append.2
      ⟨forall_mem_nil _, forall_mem_append.2 ⟨hbody, hrest⟩⟩)
  cases task with
  | evaluate expr =>
    refine hmachine (forall_mem_append.2 ⟨?_, forall_mem_nil _⟩)
    exact (forall_mem_append.1 (forall_mem_append.1 htask).1).1
  | script program => exact hbody htask (forall_mem_nil _)
  | run program =>
    simp only [Task.machine, ofProgram]
    split
    · refine hbody (forall_mem_flatMap.2 fun stmt hstmt => ?_) (forall_mem_nil _)
      exact forall_mem_flatMap.1 htask stmt (mem_filter.1 hstmt).1
    · exact hbody htask (forall_mem_nil _)

end Content

/-! ## Stocks -/

namespace Stock

open Machine

variable {stock : Stock} {ctx : Context} {start m : Machine}

/-- What is in stock is handed on. -/
theorem Suits.closed (h : stock.Suits ctx) :
    Content.Closed stock.Has stock.ground (fun _ _ _ _ => True) ctx where
  marked := h.marked _ _ _ _ _ _
  assigns := h.assigns _ _ _ _
  declares _ henv hlt := absurd hlt (Nat.not_lt.2 henv)
  plain := hasValue_of_isComparable
  function := hasValue_function
  method hcls hfound := HasValue.findMethod? hcls hfound
  inst := hasValue_inst
  wrapped hcls := hasValue_cls.2 hcls.functions
  native hnative := hnative.capability _ rfl
  fault hpolicy :=
    ⟨forall_mem_nil _, fun _ heq => absurd heq Value.noConfusion, fun _ =>
      h.fault hpolicy⟩
  raised hcause hfault := absurd (hcause.symm.trans hfault) Bool.false_ne_true
  failure hpolicy _ := h.failure hpolicy
  cls {world env decl superclass} _ hsuper hparts := by
    rw [ClassDecl.parts_eq, forall_mem_append] at hparts
    cases superclass with
    | none => exact hasValue_makeClass _ _ hsuper hparts.2 env
    | some superclass => exact hasValue_makeClass _ _ hsuper hparts.2 _

private theorem supplies_iff :
    stock.Supplies m ↔ stock.Covers m.contents ∧
      stock.ground ≤ m.world.heap.scopes.size := by
  rw [Machine.contents, World.contents, covers_append, covers_append, covers_append]
  exact ⟨fun h =>
    ⟨⟨⟨h.world.heap, h.world.frames⟩, h.control, h.pending⟩, h.world.ground⟩, fun h =>
    ⟨⟨h.1.1.1, h.1.1.2, h.2⟩, h.1.2.1, h.1.2.2⟩⟩

private theorem supplies_iff_governs : stock.Supplies m ↔
    (Content.regime stock.Has stock.ground fun _ _ _ _ => True).Governs origins m :=
  supplies_iff.trans Content.governs_iff.symm

namespace Supplies

/-- What a transition declares is in stock. -/
theorem declares (h : stock.Supplies m) (hsuits : stock.Suits ctx)
    (hdeclares : m.declares? = some (env, name)) (henv : env < stock.ground) :
    stock.declares name := by
  have hgoverns : Regime.Governs _ [] m := supplies_iff_governs.1 h
  exact hgoverns.declares hsuits.closed.upheld rfl hdeclares henv

/-- What a transition assigns is in stock. -/
theorem assigns (h : stock.Supplies m)
    (hassigns : m.assigns? = some (env, name)) :
    stock.assigns name := by
  have hgoverns : Regime.Governs _ [] m := supplies_iff_governs.1 h
  exact hgoverns.assigns rfl hassigns

theorem covers (h : stock.Supplies m) : stock.Covers m.contents :=
  (supplies_iff.1 h).1

/-- A transition leaves nothing but what is in stock. -/
theorem step (hsuits : stock.Suits ctx) (h : stock.Supplies m) :
    stock.Supplies (m.step ctx) :=
  supplies_iff.2 (hsuits.closed.step (fun _ _ _ _ => trivial) h.covers h.world.ground)

/-- A run never leaves its stock. -/
theorem of_reaches (hsuits : stock.Suits ctx) (hstart : stock.Supplies start)
    (h : Reaches ctx start m) : stock.Supplies m := by
  induction h with
  | start => exact hstart
  | step _ ih => exact ih.step hsuits

/-- A run that starts from a stocked heap with stocked code is within its stock. -/
theorem of_task {heap : Heap} {task : Task} (hheap : stock.Covers heap.contents)
    (hground : stock.ground ≤ heap.scopes.size)
    (htask : stock.Covers (Stmt.listContents globalScope task.stmts)) :
    stock.Supplies (task.machine heap) := by
  refine supplies_iff.2 ⟨Content.forall_task hheap htask, ?_⟩
  rw [Task.world_machine]
  exact hground

end Supplies

end Stock

end Treewalk
