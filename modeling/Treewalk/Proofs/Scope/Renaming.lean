import Treewalk.Proofs.Scope.Record
import Treewalk.Proofs.Tree.Renaming

/-!
# Resolution of programs written anew

Resolution looks at names and at where they stand, never at the numbers of nodes, nor at
how a body is left. A program written anew has the same fault or none, and the findings
about it are the renamed findings (`Program.resolve_recast`). Where no two nodes get one
number, a renamed node is known by its new number exactly as it was by its old one
(`Program.resolve_rename`).
-/

namespace Treewalk

open List

variable (ρ : NodeId → NodeId) {sight' : Sight}

/-- The finding about the renamed node. -/
def Note.rename : Note → Note
  | distance id d => distance (ρ id) d
  | nativeCall id => nativeCall (ρ id)

/-! ## What findings depend on -/

namespace Sight

/-- The same scopes are open, and the globals shadow the same capabilities. -/
structure Alike (sight sight' : Sight) : Prop where
  scopes : sight.scopes = sight'.scopes
  natives : sight.natives = sight'.natives
  globals : ∀ name, sight.natives name = true →
    (name ∈ sight.globals ↔ name ∈ sight'.globals)

namespace Alike

variable {sight sight' : Sight}

theorem refl (sight : Sight) : Alike sight sight :=
  ⟨rfl, rfl, fun _ _ => Iff.rfl⟩

variable (h : Alike sight sight')

include h

theorem enter (names : List String) : Alike (sight.enter names) (sight'.enter names) :=
  ⟨congrArg (names :: ·) h.scopes, h.natives, h.globals⟩

private theorem declare (names : List String) :
    Alike (sight.declare names) (sight'.declare names) := by
  obtain ⟨scopes, globals, natives⟩ := sight
  obtain ⟨scopes', globals', natives'⟩ := sight'
  obtain ⟨rfl, rfl, hglobals⟩ := h
  cases scopes with
  | nil =>
    refine ⟨rfl, rfl, fun name hname => ?_⟩
    simp only [Sight.declare, mem_append]
    exact or_congr_right (hglobals name hname)
  | cons scope outer => exact ⟨rfl, rfl, hglobals⟩

private theorem distance? (name : String) :
    sight.distance? name = sight'.distance? name := by
  rw [Sight.distance?, Sight.distance?, h.scopes]

private theorem isNative (name : String) :
    sight.isNative name = sight'.isNative name := by
  rw [Sight.isNative, Sight.isNative, h.distance?, ← h.natives]
  cases hnative : sight.natives name with
  | false => rfl
  | true =>
    have hcontains : sight.globals.contains name = sight'.globals.contains name := by
      rw [Bool.eq_iff_iff, contains_iff_mem, contains_iff_mem]
      exact h.globals name hnative
    rw [hcontains]

end Alike

end Sight

/-! ## Findings -/

namespace Sight

variable {sight sight' : Sight}

private theorem Alike.reference (h : sight.Alike sight') (id : NodeId) (name : String) :
    sight'.reference (ρ id) name = (sight.reference id name).map (Note.rename ρ) := by
  unfold Sight.reference
  rw [h.distance?]
  cases sight'.distance? name <;> rfl

theorem Alike.call (h : sight.Alike sight') (id : NodeId) (callee : Expr) :
    sight'.call (ρ id) (callee.rename ρ) =
      (sight.call id callee).map (Note.rename ρ) := by
  cases callee with
  | var span id' name =>
    simp only [Expr.rename, Sight.call, h.isNative]
    split <;> rfl
  | _ => rfl

end Sight

mutual

private theorem Expr.notes_rename {sight sight' : Sight} (h : sight.Alike sight') :
    ∀ expr : Expr,
    (expr.rename ρ).notes sight' = (expr.notes sight).map (Note.rename ρ)
  | .assign _ _ _ value => by
    simp only [rename, notes, map_append, value.notes_rename h, h.reference]
  | .binary _ left _ right => by
    simp only [rename, notes, map_append, left.notes_rename h, right.notes_rename h]
  | .call _ _ callee args => by
    simp only [rename, notes, map_append, callee.notes_rename h, h.call,
      Expr.listNotes_rename h args]
  | .get _ object _ => by simp only [rename, notes, object.notes_rename h]
  | .grouping _ inner => by simp only [rename, notes, inner.notes_rename h]
  | .literal .. => rfl
  | .logical _ left _ right => by
    simp only [rename, notes, map_append, left.notes_rename h, right.notes_rename h]
  | .set _ object _ value => by
    simp only [rename, notes, map_append, object.notes_rename h, value.notes_rename h]
  | .super .. => rfl
  | .this _ => rfl
  | .unary _ _ operand => by simp only [rename, notes, operand.notes_rename h]
  | .var _ _ _ => by simp only [rename, notes, h.reference]

private theorem Expr.listNotes_rename {sight sight' : Sight} (h : sight.Alike sight') :
    ∀ exprs : List Expr,
    listNotes sight' (listRename ρ exprs) = (listNotes sight exprs).map (Note.rename ρ)
  | [] => rfl
  | expr :: rest => by
    simp only [listRename, listNotes, map_append, expr.notes_rename h,
      Expr.listNotes_rename h rest]

end

theorem Expr.optionNotes_rename {sight : Sight} (h : sight.Alike sight')
    (expr : Option Expr) :
    optionNotes sight' (expr.map (rename ρ)) =
      (optionNotes sight expr).map (Note.rename ρ) := by
  cases expr with
  | none => rfl
  | some expr => exact expr.notes_rename ρ h

section Statements

variable (c : Recast)

@[simp] theorem Stmt.declared_recast :
    ∀ stmt : Stmt, (stmt.recast c).declared = stmt.declared
  | .funcDecl .. => by simp only [Stmt.recast, declared, FunctionDecl.name_recast]
  | .classDecl .. => by simp only [Stmt.recast, declared, ClassDecl.name_recast]
  | .var .. => by simp only [Stmt.recast, declared]
  | .branch _ _ onTrue none =>
    by simp only [Stmt.recast, declared, onTrue.declared_recast]
  | .branch _ _ onTrue (some onFalse) => by
    simp only [Stmt.recast, declared, onTrue.declared_recast, onFalse.declared_recast]
  | .loop _ _ body => by simp only [Stmt.recast, declared, body.declared_recast]
  | .block .. => by simp only [Stmt.recast, declared]
  | .print .. => by simp only [Stmt.recast, declared]
  | .ret .. => by simp only [Stmt.recast, declared]
  | .brk _ => by
    rw [Stmt.recast, Recast.brk]
    split <;> rfl
  | .expression .. => by simp only [Stmt.recast, declared]

mutual

private theorem Stmt.notes_recast {sight sight' : Sight} (h : sight.Alike sight') :
    ∀ stmt : Stmt,
    (stmt.recast c).notes sight' = (stmt.notes sight).map (Note.rename c.id)
  | .block _ body =>
    by simp only [Stmt.recast, Stmt.notes, Stmt.listNotes_recast (h.enter []) body]
  | .funcDecl _ decl => by
    simp only [Stmt.recast, Stmt.notes, FunctionDecl.name_recast,
      FunctionDecl.notes_recast (h.declare _) decl]
  | .classDecl _ decl => by
    simp only [Stmt.recast, Stmt.notes, ClassDecl.name_recast,
      ClassDecl.notes_recast (h.declare _) decl]
  | .branch _ cond onTrue none => by
    simp only [Stmt.recast, Stmt.notes, map_append, cond.notes_rename _ h,
      Stmt.notes_recast h onTrue]
  | .branch _ cond onTrue (some onFalse) => by
    simp only [Stmt.recast, Stmt.notes, map_append, cond.notes_rename _ h,
      Stmt.declared_recast, Stmt.notes_recast h onTrue, Stmt.notes_recast
      (h.declare _) onFalse]
  | .print _ _ operand =>
    by simp only [Stmt.recast, Stmt.notes, Expr.optionNotes_rename _ h]
  | .ret _ operand =>
    by simp only [Stmt.recast, Stmt.notes, Expr.optionNotes_rename _ h]
  | .brk _ => by
    rw [Stmt.recast, Recast.brk]
    split <;> simp only [Stmt.notes, Expr.optionNotes, map_nil]
  | .var _ _ init => by simp only [Stmt.recast, Stmt.notes, Expr.optionNotes_rename _ h]
  | .loop _ cond body => by
    simp only [Stmt.recast, Stmt.notes, map_append, cond.notes_rename _ h,
      Stmt.notes_recast h body]
  | .expression _ expr => by simp only [Stmt.recast, Stmt.notes, expr.notes_rename _ h]

private theorem Stmt.listNotes_recast {sight sight' : Sight} (h : sight.Alike sight') :
    ∀ body : List Stmt,
    Stmt.listNotes sight' (Stmt.listRecast c body) =
      (Stmt.listNotes sight body).map (Note.rename c.id)
  | [] => by simp only [Stmt.listRecast, Stmt.listNotes, map_nil]
  | stmt :: rest => by
    simp only [Stmt.listRecast, Stmt.listNotes, map_append, Stmt.declared_recast,
      Stmt.notes_recast h stmt, Stmt.listNotes_recast (h.declare _) rest]

private theorem FunctionDecl.notes_recast {sight sight' : Sight}
    (h : sight.Alike sight') :
    ∀ decl : FunctionDecl, (decl.recast c).notes sight' =
      (decl.notes sight).map (Note.rename c.id)
  | .mk _ _ body _ => by
    simp only [FunctionDecl.recast, FunctionDecl.notes,
      Stmt.listNotes_recast (h.enter _) body]

private theorem ClassDecl.notes_recast {sight sight' : Sight} (h : sight.Alike sight') :
    ∀ decl : ClassDecl,
    (decl.recast c).notes sight' = (decl.notes sight).map (Note.rename c.id)
  | .mk _ none methods _ => by
    simp only [ClassDecl.recast, ClassDecl.notes, Option.map_none,
      FunctionDecl.listNotes_recast (h.enter _) methods]
  | .mk _ (some superclass) methods _ => by
    simp only [ClassDecl.recast, ClassDecl.notes, Option.map_some, map_append,
      superclass.notes_rename _ h, FunctionDecl.listNotes_recast
        ((h.enter _).enter _) methods]

private theorem FunctionDecl.listNotes_recast {sight sight' : Sight}
    (h : sight.Alike sight') :
    ∀ decls : List FunctionDecl,
      FunctionDecl.listNotes sight' (FunctionDecl.listRecast c decls) =
      (FunctionDecl.listNotes sight decls).map (Note.rename c.id)
  | [] => by simp only [FunctionDecl.listRecast, FunctionDecl.listNotes, map_nil]
  | decl :: rest => by
    simp only [FunctionDecl.listRecast, FunctionDecl.listNotes, map_append,
      FunctionDecl.notes_recast h decl, FunctionDecl.listNotes_recast h rest]

end

private theorem Note.map_rename_self {ρ : NodeId → NodeId} (h : ∀ id, ρ id = id)
    (notes : List Note) :
    notes.map (Note.rename ρ) = notes := by
  refine map_id'' (fun note => ?_) notes
  cases note <;> rw [Note.rename, h]

/-- What is found in a statement depends on the scopes and on the capabilities that are
shadowed. -/
theorem Stmt.notes_alike {sight : Sight} (h : sight.Alike sight') (stmt : Stmt) :
    stmt.notes sight = stmt.notes sight' := by
  have hself := stmt.notes_recast (.ofRenaming id) h
  rw [Stmt.recast_of_fixed (ρ := id) fun _ _ => rfl,
    Note.map_rename_self (ρ := (Recast.ofRenaming id).id) fun _ => rfl] at hself
  exact hself.symm

theorem Stmt.listNotes_alike {sight : Sight} (h : sight.Alike sight')
    (body : List Stmt) :
    Stmt.listNotes sight body = Stmt.listNotes sight' body := by
  have hself := Stmt.listNotes_recast (.ofRenaming id) h body
  rw [Stmt.listRecast_of_fixed (ρ := id) fun _ _ => rfl,
    Note.map_rename_self (ρ := (Recast.ofRenaming id).id) fun _ => rfl] at hself
  exact hself.symm

/-! ## Faults -/

mutual

private theorem Stmt.fault?_recast : ∀ stmt : Stmt, (stmt.recast c).fault? = stmt.fault?
  | .block _ body =>
    by simp only [Stmt.recast, Stmt.fault?, Stmt.listFault?_recast body]
  | .funcDecl _ decl =>
    by simp only [Stmt.recast, Stmt.fault?, FunctionDecl.fault?_recast decl]
  | .classDecl _ decl =>
    by simp only [Stmt.recast, Stmt.fault?, ClassDecl.fault?_recast decl]
  | .branch _ _ onTrue none =>
    by simp only [Stmt.recast, Stmt.fault?, Stmt.fault?_recast onTrue]
  | .branch _ _ onTrue (some onFalse) => by
    simp only [Stmt.recast, Stmt.fault?, Stmt.fault?_recast onTrue,
      Stmt.fault?_recast onFalse]
  | .print .. => by simp only [Stmt.recast, Stmt.fault?]
  | .ret .. => by simp only [Stmt.recast, Stmt.fault?]
  | .brk _ => by
    rw [Stmt.recast, Recast.brk]
    split <;> simp only [Stmt.fault?]
  | .var .. => by simp only [Stmt.recast, Stmt.fault?]
  | .loop _ _ body => by simp only [Stmt.recast, Stmt.fault?, Stmt.fault?_recast body]
  | .expression .. => by simp only [Stmt.recast, Stmt.fault?]

private theorem Stmt.listFault?_recast : ∀ body : List Stmt,
    Stmt.listFault? (Stmt.listRecast c body) = Stmt.listFault? body
  | [] => by simp only [Stmt.listRecast]
  | stmt :: rest => by
    simp only [Stmt.listRecast, Stmt.listFault?, Stmt.fault?_recast stmt,
      Stmt.listFault?_recast rest]

private theorem FunctionDecl.fault?_recast :
    ∀ decl : FunctionDecl, (decl.recast c).fault? = decl.fault?
  | .mk _ _ body _ => by
    simp only [FunctionDecl.recast, FunctionDecl.fault?, Stmt.listFault?_recast body]

private theorem ClassDecl.fault?_recast :
    ∀ decl : ClassDecl, (decl.recast c).fault? = decl.fault?
  | .mk _ none methods _ => by
    simp only [ClassDecl.recast, ClassDecl.fault?, Option.map_none,
      FunctionDecl.listFault?_recast methods]
  | .mk _ (some superclass) methods _ => by
    simp only [ClassDecl.recast, ClassDecl.fault?, Option.map_some, ClassDecl.ownFault?,
      Expr.name?_rename, Expr.span_rename, FunctionDecl.listFault?_recast methods]

private theorem FunctionDecl.listFault?_recast : ∀ decls : List FunctionDecl,
    FunctionDecl.listFault? (FunctionDecl.listRecast c decls) =
      FunctionDecl.listFault? decls
  | [] => by simp only [FunctionDecl.listRecast]
  | decl :: rest => by
    simp only [FunctionDecl.listRecast, FunctionDecl.listFault?,
      FunctionDecl.fault?_recast decl, FunctionDecl.listFault?_recast rest]

end

/-! ## Programs -/

@[simp] theorem Stmt.globalName?_recast (stmt : Stmt) :
    (stmt.recast c).globalName? = stmt.globalName? := by
  cases stmt with
  | var _ name init => simp only [Stmt.recast, globalName?]
  | branch _ _ _ onFalse =>
    cases onFalse <;> simp only [Stmt.recast, globalName?, declaredName?]
  | brk span =>
    rw [Stmt.recast, Recast.brk]
    split <;> rfl
  | _ =>
    simp only [Stmt.recast, globalName?, declaredName?, FunctionDecl.name_recast,
      ClassDecl.name_recast]

private theorem Program.sight_recast (program : Program) (natives : String → Bool)
    (globals : List String) :
    (program.recast c).sight natives globals = program.sight natives globals := by
  have hname : Stmt.globalName? ∘ Stmt.recast c = Stmt.globalName? :=
    funext fun stmt => stmt.globalName?_recast c
  simp only [sight, recast, filterMap_map, hname]

private theorem Program.listFault?_recast (program : Program) :
    Stmt.listFault? (program.recast c).stmts = Stmt.listFault? program.stmts := by
  rw [recast, ← Stmt.listRecast_eq_map, Stmt.listFault?_recast]

/-- The answer of resolution: the same fault, or the renamed findings. -/
theorem Program.resolve_recast (program : Program) (natives : String → Bool)
    (globals : List String) :
    (program.recast c).resolve natives globals =
      match Stmt.listFault? program.stmts with
      | some fault => .error fault
      | none => .ok (.ofNotes
          ((Stmt.listNotes (program.sight natives globals) program.stmts).map
            (Note.rename c.id))) := by
  have hnotes : ∀ sight, Stmt.listNotes sight (program.recast c).stmts =
      (Stmt.listNotes sight program.stmts).map (Note.rename c.id) := by
    intro sight
    rw [recast, ← Stmt.listRecast_eq_map, Stmt.listNotes_recast c (.refl sight)]
  cases hfault : Stmt.listFault? program.stmts <;>
    simp only [resolve, program.listFault?_recast, program.sight_recast, hnotes, hfault]

end Statements

/-- Where no number changes, resolution gives the same. -/
theorem Program.resolve_returning (program : Program) (natives : String → Bool)
    (globals : List String) :
    (program.recast .returning).resolve natives globals =
      program.resolve natives globals := by
  rw [resolve_recast, Note.map_rename_self (ρ := Recast.returning.id) fun _ => rfl]
  cases hfault : Stmt.listFault? program.stmts <;> simp only [resolve, hfault]

namespace Resolution

/-- What is known about a node in one resolution is known about its new number in the
other. -/
def Renamed (resolution renamed : Resolution) : Prop :=
  ∀ id, renamed.distance? (ρ id) = resolution.distance? id ∧
    renamed.isNativeCall (ρ id) = resolution.isNativeCall id

variable {ρ} {resolution renamed : Resolution}

theorem Renamed.note (hρ : Function.Injective ρ) (h : resolution.Renamed ρ renamed)
    (note : Note) :
    (resolution.note note).Renamed ρ (renamed.note (note.rename ρ)) := by
  intro id
  have hsame : ∀ id', compare (ρ id') (ρ id) = compare id' id ∨
      (compare (ρ id') (ρ id) ≠ .eq ∧ compare id' id ≠ .eq) := by
    intro id'
    by_cases hid : id' = id
    · exact .inl (by simp [hid])
    · exact .inr (by simp [hid, hρ.ne hid])
  cases note with
  | distance id' d =>
    refine ⟨?_, (h id).2⟩
    have hold := (h id).1
    simp only [Resolution.note, Note.rename, distance?, Std.TreeMap.getElem?_insert]
      at hold ⊢
    rcases hsame id' with heq | ⟨hne, hne'⟩
    · rw [heq, hold]
    · rw [if_neg hne, if_neg hne', hold]
  | nativeCall id' =>
    refine ⟨(h id).1, ?_⟩
    have hold := (h id).2
    simp only [Resolution.note, Note.rename, isNativeCall, Std.TreeSet.contains_insert]
      at hold ⊢
    rcases hsame id' with heq | ⟨hne, hne'⟩
    · rw [heq, hold]
    · rw [beq_eq_false_iff_ne.2 hne, beq_eq_false_iff_ne.2 hne', hold]

theorem Renamed.foldl (hρ : Function.Injective ρ) (h : resolution.Renamed ρ renamed)
    (notes : List Note) : (notes.foldl Resolution.note resolution).Renamed ρ
      ((notes.map (Note.rename ρ)).foldl Resolution.note renamed) := by
  induction notes generalizing resolution renamed with
  | nil => exact h
  | cons first rest ih => exact ih (h.note hρ first)

theorem Renamed.merge {other otherRenamed : Resolution}
    (h : resolution.Renamed ρ renamed) (h' : other.Renamed ρ otherRenamed) :
    (resolution.merge other).Renamed ρ (renamed.merge otherRenamed) := by
  intro id
  obtain ⟨hdistance, hcall⟩ := h id
  obtain ⟨hdistance', hcall'⟩ := h' id
  refine ⟨?_, ?_⟩
  · rw [distance?_merge, distance?_merge, hdistance, hdistance']
  · rw [isNativeCall_merge, isNativeCall_merge, hcall, hcall']

end Resolution

/-- Two answers of resolution: the same fault, or findings that differ by the
renaming. -/
theorem Program.resolve_rename {ρ : NodeId → NodeId} (hρ : Function.Injective ρ)
    (program : Program) (natives : String → Bool) (globals : List String) :
    (∃ fault, program.resolve natives globals = .error fault ∧
        (program.rename ρ).resolve natives globals = .error fault) ∨
      ∃ resolution renamed, program.resolve natives globals = .ok resolution ∧
        (program.rename ρ).resolve natives globals = .ok renamed ∧
        resolution.Renamed ρ renamed := by
  rw [Program.rename, resolve_recast, resolve]
  cases Stmt.listFault? program.stmts with
  | some fault => exact .inl ⟨fault, rfl, rfl⟩
  | none =>
    have hempty : Resolution.empty.Renamed ρ .empty := fun id => ⟨rfl, rfl⟩
    exact .inr ⟨_, _, rfl, rfl, hempty.foldl hρ _⟩

/-- A fault stays where nodes are renamed. -/
theorem Program.listFault?_rename (ρ : NodeId → NodeId) (program : Program) :
    Stmt.listFault? (program.rename ρ).stmts = Stmt.listFault? program.stmts :=
  program.listFault?_recast _

end Treewalk
