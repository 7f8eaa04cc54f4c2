import Treewalk.Proofs.Session.Numbers

/-!
# Calls that are marked

A call by name is marked as one of a capability if no open scope and no global declares
the name. The globals in sight are the same at every place of a program, since a program
has all names that it declares at its top level in sight from the start. With numbers
that are distinct this tells which calls are marked:

* `Program.isNativeCall_iff`: those of a capability whose name is not global and has no
  distance.
* `Program.distance?_of_call`: the arguments of a call see the name that it calls as the
  call does.

A session takes both over for every text (`Session.isNativeCall_prepare_iff`,
`Session.distance?_prepare_of_call`).
-/

namespace Treewalk

open List

variable {expr : Expr}

/-! ## Globals in sight -/

namespace Sight

/-- The same capabilities and the same globals are in sight. -/
structure Agrees (sight sight' : Sight) : Prop where
  natives : sight.natives = sight'.natives
  globals : ∀ name, name ∈ sight.globals ↔ name ∈ sight'.globals

variable {start sight : Sight} {names : List String}

private theorem Agrees.enter (h : Agrees start sight) (names : List String) :
    Agrees start (sight.enter names) :=
  ⟨h.natives, h.globals⟩

/-- At the top level nothing is declared that is not in sight already. -/
def Ready (start sight : Sight) (names : List String) : Prop :=
  sight.scopes = [] → names ⊆ start.globals

private theorem Ready.enter (start : Sight) (sight : Sight)
    (names names' : List String) :
    Ready start (sight.enter names) names' :=
  fun h => nomatch h

theorem Ready.declare {names' : List String} (h : Ready start sight names) :
    Ready start (sight.declare names') names := by
  intro hscopes
  refine h ?_
  unfold Sight.declare at hscopes
  split at hscopes
  · assumption
  · cases hscopes

theorem Agrees.declare (h : Agrees start sight) (hnames : Ready start sight names) :
    Agrees start (sight.declare names) := by
  unfold Sight.declare
  split
  · rename_i hscopes
    refine ⟨h.natives, fun name => ?_⟩
    rw [mem_append, ← h.globals]
    exact ⟨.inr, fun hname => hname.elim (fun hnew => hnames hscopes hnew) id⟩
  · exact ⟨h.natives, h.globals⟩

private theorem Agrees.optionRoots (h : Agrees start sight) (expr : Option Expr) :
    ∀ root ∈ sight.optionRoots expr, Agrees start root.1 := by
  cases expr with
  | none => exact fun _ hroot => absurd hroot not_mem_nil
  | some expr => exact forall_mem_singleton.2 h

end Sight

section Agrees

variable {start : Sight}

mutual

private theorem Stmt.agrees_roots {sight : Sight} (h : Sight.Agrees start sight) :
    ∀ {stmt : Stmt},
    Sight.Ready start sight stmt.declared → ∀ root ∈ stmt.roots sight, Sight.Agrees
      start root.1
  | .block _ body, _ => by
    rw [Stmt.roots]
    exact Stmt.agrees_listRoots (h.enter []) fun _ _ => .enter start sight _ _
  | .funcDecl _ decl, hready => by
    rw [Stmt.roots]
    exact FunctionDecl.agrees_roots (h.declare hready)
  | .classDecl _ decl, hready => by
    rw [Stmt.roots]
    exact ClassDecl.agrees_roots (h.declare hready)
  | .branch _ cond onTrue none, hready => by
    rw [Stmt.roots]
    exact forall_mem_cons.2 ⟨h, Stmt.agrees_roots h hready⟩
  | .branch _ cond onTrue (some onFalse), hready => by
    have htrue : Sight.Ready start sight onTrue.declared :=
      fun hscopes => (append_subset.1 (hready hscopes)).2
    have hfalse : Sight.Ready start sight onFalse.declared :=
      fun hscopes => (append_subset.1 (hready hscopes)).1
    rw [Stmt.roots]
    exact forall_mem_cons.2 ⟨h, forall_mem_append.2
      ⟨Stmt.agrees_roots h htrue, Stmt.agrees_roots (h.declare htrue) hfalse.declare⟩⟩
  | .print _ _ operand, _ => by
    rw [Stmt.roots]
    exact h.optionRoots operand
  | .ret _ operand, _ => by
    rw [Stmt.roots]
    exact h.optionRoots operand
  | .brk _, _ => by simp [Stmt.roots]
  | .var _ _ init, _ => by
    rw [Stmt.roots]
    exact h.optionRoots init
  | .loop _ cond body, hready => by
    rw [Stmt.roots]
    exact forall_mem_cons.2 ⟨h, Stmt.agrees_roots h hready⟩
  | .expression _ expr, _ => by
    rw [Stmt.roots]
    exact forall_mem_singleton.2 h

/-- At every place of statements the globals in sight are those at their start. -/
theorem Stmt.agrees_listRoots {sight : Sight} (h : Sight.Agrees start sight) :
    ∀ {body : List Stmt},
    (∀ stmt ∈ body, Sight.Ready start sight stmt.declared) →
      ∀ root ∈ Stmt.listRoots sight body, Sight.Agrees start root.1
  | [], _ => by simp [Stmt.listRoots]
  | stmt :: rest, hready => by
    obtain ⟨hstmt, hrest⟩ := forall_mem_cons.1 hready
    rw [Stmt.listRoots]
    exact forall_mem_append.2 ⟨Stmt.agrees_roots h hstmt,
      Stmt.agrees_listRoots (h.declare hstmt) fun other hother =>
        (hrest other hother).declare⟩

private theorem FunctionDecl.agrees_roots {sight : Sight}
    (h : Sight.Agrees start sight) :
    ∀ {decl : FunctionDecl},
    ∀ root ∈ decl.roots sight, Sight.Agrees start root.1
  | .mk _ params body _ => by
    rw [FunctionDecl.roots]
    exact Stmt.agrees_listRoots (h.enter _) fun _ _ => .enter start sight _ _

private theorem ClassDecl.agrees_roots {sight : Sight} (h : Sight.Agrees start sight) :
    ∀ {decl : ClassDecl},
    ∀ root ∈ decl.roots sight, Sight.Agrees start root.1
  | .mk _ none methods _ => by
    rw [ClassDecl.roots]
    exact FunctionDecl.agrees_listRoots (h.enter _)
  | .mk _ (some superclass) methods _ => by
    rw [ClassDecl.roots]
    exact forall_mem_cons.2 ⟨h, FunctionDecl.agrees_listRoots ((h.enter _).enter _)⟩

private theorem FunctionDecl.agrees_listRoots {sight : Sight}
    (h : Sight.Agrees start sight) :
    ∀ {decls : List FunctionDecl}, ∀ root ∈ FunctionDecl.listRoots sight decls,
      Sight.Agrees start root.1
  | [] => by simp [FunctionDecl.listRoots]
  | decl :: rest => by
    rw [FunctionDecl.listRoots]
    exact forall_mem_append.2
      ⟨FunctionDecl.agrees_roots h, FunctionDecl.agrees_listRoots h⟩

end

end Agrees

/-! ## Programs -/

/-- In a parsed tree a statement declares around itself what it makes global at the top
level. -/
theorem Stmt.declared_eq_globalName? : ∀ {stmt : Stmt}, stmt.formed = true →
    stmt.declared = stmt.globalName?.toList
  | .block .., _ => rfl
  | .funcDecl .., _ => rfl
  | .classDecl .., _ => rfl
  | .branch .., h => Stmt.declared_of_isAlternative rfl h
  | .loop _ _ body, h => by
    simp only [Stmt.formed, Bool.and_eq_true] at h
    rw [Stmt.declared, Stmt.declared_of_isBlock h.1]
    rfl
  | .print .., _ => rfl
  | .ret .., _ => rfl
  | .brk _, _ => rfl
  | .var .., _ => rfl
  | .expression .., _ => rfl

theorem Stmt.formed_of_mem {body : List Stmt} (h : Stmt.listFormed body = true)
    {stmt : Stmt} (hstmt : stmt ∈ body) : stmt.formed = true := by
  induction body with
  | nil => cases hstmt
  | cons first rest ih =>
    rw [Stmt.listFormed, Bool.and_eq_true] at h
    rcases mem_cons.1 hstmt with rfl | hrest
    · exact h.1
    · exact ih h.2 hrest

namespace Program

/-- The program declares the name at its top level. -/
def Declares (program : Program) (name : String) : Prop :=
  name ∈ program.stmts.filterMap Stmt.globalName?

theorem declares_of_mem_declared {program : Program}
    (hformed : Stmt.listFormed program.stmts = true) {stmt : Stmt}
    (hstmt : stmt ∈ program.stmts) {name : String} (hname : name ∈ stmt.declared) :
    program.Declares name := by
  rw [Stmt.declared_eq_globalName? (Stmt.formed_of_mem hformed hstmt),
    Option.mem_toList] at hname
  exact mem_filterMap.2 ⟨stmt, hstmt, hname⟩

variable {program : Program} {natives : String → Bool} {globals : List String}
  {resolution : Resolution}

/-- Of an expression of the program exactly its own findings are found. -/
theorem mem_notes_iff (hids : program.ids.Nodup) {start sight : Sight} {expr : Expr}
    (hexpr : (sight, expr) ∈ seen (Stmt.listRoots start program.stmts)) {note : Note}
    (hid : expr.id? = some note.id) :
    note ∈ Stmt.listNotes start program.stmts ↔ note ∈ expr.ownNotes sight := by
  rw [Stmt.mem_listNotes]
  refine ⟨?_, fun hnote => ⟨(sight, expr), hexpr, hnote⟩⟩
  rintro ⟨other, hother, hnote⟩
  -- The numbers of the expressions are distinct, so both are the same one.
  have hnodup : ((seen (Stmt.listRoots start program.stmts)).filterMap fun entry =>
      entry.2.id?).Nodup := by
    have hseen :=
      congrArg (List.filterMap Expr.id?) (Stmt.map_snd_seen_list start program.stmts)
    rw [filterMap_map, Stmt.ids_listParts] at hseen
    exact hseen ▸ hids
  obtain rfl :=
    eq_of_nodup_filterMap hnodup hother hexpr (Expr.id?_of_mem_ownNotes hnote) hid
  exact hnote

private theorem part_mem_parts {part : Expr} (hexpr : expr ∈ program.parts)
    (hpart : part ∈ expr.parts) :
    part ∈ program.parts := by
  rw [parts, ← Stmt.map_snd_seen_list (program.sight (Native.enabled []) [])] at hexpr ⊢
  obtain ⟨⟨sight, expr'⟩, hseen, rfl⟩ := mem_map.1 hexpr
  exact mem_map.2 ⟨(sight, part), part_mem_seen hseen part hpart, rfl⟩

private theorem id_mem_ids {id : NodeId} (hexpr : expr ∈ program.parts)
    (hid : expr.id? = some id) : id ∈ program.ids := by
  rw [ids, ← Stmt.ids_listParts]
  exact mem_filterMap.2 ⟨expr, hexpr, hid⟩

private theorem exists_sight (hformed : Stmt.listFormed program.stmts = true)
    (hexpr : expr ∈ program.parts) :
    ∃ sight, (sight, expr) ∈ seen (Stmt.listRoots (program.sight natives globals)
      program.stmts) ∧ (program.sight natives globals).Agrees sight := by
  rw [parts, ← Stmt.map_snd_seen_list (program.sight natives globals)] at hexpr
  obtain ⟨⟨sight, expr'⟩, hseen, rfl⟩ := mem_map.1 hexpr
  refine ⟨sight, hseen, ?_⟩
  obtain ⟨root, hroot, hmem⟩ := mem_flatMap.1 hseen
  obtain ⟨part, -, heq⟩ := mem_map.1 hmem
  cases heq
  refine Stmt.agrees_listRoots ⟨rfl, fun _ => Iff.rfl⟩
    (fun stmt hstmt _ name hname => ?_) root hroot
  exact mem_append_left _ (declares_of_mem_declared hformed hstmt hname)

theorem distance?_of_seen (hids : program.ids.Nodup)
    (hresolve : program.resolve natives globals = .ok resolution) {sight : Sight}
    {span : Span} {id : NodeId} {name : String}
    (hvar : (sight, .var span id name) ∈
      seen (Stmt.listRoots (program.sight natives globals) program.stmts)) :
    resolution.distance? id = sight.distance? name := by
  rw [eq_ofNotes_of_resolve hresolve]
  refine Resolution.distance?_ofNotes fun d => ?_
  rw [mem_notes_iff hids hvar rfl, Expr.ownNotes, Sight.mem_reference]
  cases sight.distance? name <;> simp

variable {span access : Span} {id calleeId : NodeId} {name : String} {args : List Expr}

/-- The calls by name that are marked are those of a capability whose name is not global
and is not declared by a scope around the call. -/
theorem isNativeCall_iff (hformed : Stmt.listFormed program.stmts = true)
    (hids : program.ids.Nodup)
    (hresolve : program.resolve natives globals = .ok resolution)
    (hcall : .call span id (.var access calleeId name) args ∈ program.parts) :
    resolution.isNativeCall id = true ↔ natives name = true ∧
      ¬program.Declares name ∧ name ∉ globals ∧
        resolution.distance? calleeId = none := by
  obtain ⟨sight, hseen, hagrees⟩ := exists_sight hformed hcall
  have hcallee := part_mem_seen hseen (.var access calleeId name) (by simp [Expr.parts])
  have hnatives : sight.natives = natives := hagrees.natives.symm
  have hglobal : name ∈ sight.globals ↔ program.Declares name ∨ name ∈ globals := by
    rw [← hagrees.globals]
    exact mem_append
  have hmarked : resolution.isNativeCall id = true ↔ sight.isNative name = true := by
    rw [eq_ofNotes_of_resolve hresolve, Resolution.isNativeCall_ofNotes,
      mem_notes_iff hids hseen rfl]
    simp [Expr.ownNotes, Sight.call]
  rw [hmarked, distance?_of_seen hids hresolve hcallee, Sight.isNative, hnatives]
  simp [hglobal, and_assoc]

/-- A variable among the arguments of a call by the same name is found where the call
finds the name. -/
theorem distance?_of_call (hformed : Stmt.listFormed program.stmts = true)
    (hids : program.ids.Nodup)
    (hresolve : program.resolve natives globals = .ok resolution)
    (hcall : .call span id (.var access calleeId name) args ∈ program.parts)
    {span' : Span} {id' : NodeId} (harg : .var span' id' name ∈ args) :
    resolution.distance? id' = resolution.distance? calleeId := by
  obtain ⟨sight, hseen, -⟩ := exists_sight hformed hcall
  have hcallee := part_mem_seen hseen (.var access calleeId name) (by simp [Expr.parts])
  have hvar :=
    part_mem_seen hseen (.var span' id' name)
    (by simp [Expr.parts, Expr.mem_listParts harg])
  rw [distance?_of_seen hids hresolve hcallee, distance?_of_seen hids hresolve hvar]

end Program

/-! ## Sessions -/

namespace Session

variable {session prepared : Session} {source : String} {program : Program}
  {span access : Span} {id calleeId : NodeId} {name : String} {args : List Expr}

variable (hbounded : session.Bounded)

include hbounded

private theorem sameAt_prepare {next : NodeId} {resolution : Resolution}
    (hread : Source.read session.nextId source = (.ok program, next))
    (hresolve : program.resolve (Native.enabled session.natives) session.globalNames =
      .ok resolution) (hexpr : expr ∈ program.parts) (hid : expr.id? = some id) :
    (session.resolution.merge resolution).SameAt resolution id :=
  (sameAt_merge hbounded hread hresolve id).1 (Program.id_mem_ids hexpr hid)

/-- The calls by name that a session marks in a new text. -/
theorem isNativeCall_prepare_iff
    (hprepare : session.prepare source = (prepared, .ok program))
    (hcall : .call span id (.var access calleeId name) args ∈ program.parts) :
    prepared.resolution.isNativeCall id = true ↔
      (Native.named? name session.natives).isSome = true ∧ ¬program.Declares name ∧
      name ∉ session.globalNames ∧ prepared.resolution.distance? calleeId = none := by
  obtain ⟨next, resolution, hread, hresolve, rfl⟩ := prepare_eq_ok_iff.1 hprepare
  have hcallee : .var access calleeId name ∈ program.parts :=
    Program.part_mem_parts hcall (by simp [Expr.parts])
  rw [(sameAt_prepare hbounded hread hresolve hcall rfl).2,
    (sameAt_prepare hbounded hread hresolve hcallee rfl).1]
  exact Program.isNativeCall_iff (Source.formed_of_read hread)
    (Source.nodup_of_read hread) hresolve hcall

theorem distance?_prepare_of_call
    (hprepare : session.prepare source = (prepared, .ok program))
    (hcall : .call span id (.var access calleeId name) args ∈ program.parts)
    {span' : Span} {id' : NodeId} (harg : .var span' id' name ∈ args) :
    prepared.resolution.distance? id' = prepared.resolution.distance? calleeId := by
  obtain ⟨next, resolution, hread, hresolve, rfl⟩ := prepare_eq_ok_iff.1 hprepare
  have hcallee : .var access calleeId name ∈ program.parts :=
    Program.part_mem_parts hcall (by simp [Expr.parts])
  have hvar : .var span' id' name ∈ program.parts :=
    Program.part_mem_parts hcall (by simp [Expr.parts, Expr.mem_listParts harg])
  rw [(sameAt_prepare hbounded hread hresolve hcallee rfl).1,
    (sameAt_prepare hbounded hread hresolve hvar rfl).1]
  exact Program.distance?_of_call (Source.formed_of_read hread)
    (Source.nodup_of_read hread) hresolve hcall harg

end Session

end Treewalk
