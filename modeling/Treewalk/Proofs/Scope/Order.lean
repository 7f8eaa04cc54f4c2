import Treewalk.Proofs.Scope.Marks
import Treewalk.Proofs.Scope.Renaming

/-!
# The order of top-level statements

What resolution finds about a place depends on the open scopes and on which capabilities
the globals shadow, and on nothing else in sight (`Sight.Alike`, `Stmt.notes_alike`).
Where the bodies of `if` and `while` are blocks or `if`s, a top-level statement declares
only names that are global from the start, so every top-level statement is walked with
the same in sight, and the findings of a program are those of its statements side by
side (`Program.listNotes_eq`). With distinct numbers a node has one distance at most, so
the order of the findings does not show in the resolution.

Resolution fails for the class declarations that name themselves, wherever they stand
(`Stmt.classes`).

## Main results

* `Program.listNotes_eq`: the findings of a program, statement by statement.
* `Resolution.sameAt_ofNotes`: findings that agree about a node leave the same known
  about it.
* `Program.resolve_order_free`: all orders of the top-level statements are resolved
  alike.
-/

namespace Treewalk

open List

variable {decl : ClassDecl}

/-! ## Findings side by side -/

/-- Where nothing is declared that is not global already, every statement is walked with
the same in sight. -/
private theorem Stmt.listNotes_eq_flatMap {sight : Sight}
    (hscopes : sight.scopes = []) : ∀ {body : List Stmt},
    (∀ stmt ∈ body, stmt.declared ⊆ sight.globals) →
      Stmt.listNotes sight body = body.flatMap (Stmt.notes sight)
  | [], _ => by rw [Stmt.listNotes, flatMap_nil]
  | stmt :: rest, h => by
    obtain ⟨hstmt, hrest⟩ := forall_mem_cons.1 h
    have halike : (sight.declare stmt.declared).Alike sight := by
      obtain ⟨scopes, globals, natives⟩ := sight
      cases hscopes
      refine ⟨rfl, rfl, fun name _ => ?_⟩
      simp only [Sight.declare, mem_append]
      exact ⟨fun hname => hname.elim (fun hnew => hstmt hnew) id, .inr⟩
    rw [Stmt.listNotes, Stmt.listNotes_alike halike,
      Stmt.listNotes_eq_flatMap hscopes hrest, flatMap_cons]

namespace Program

variable {program : Program}

/-- The findings of a program are those of its statements. -/
theorem listNotes_eq
    (h : ∀ stmt ∈ program.stmts, stmt.declared = stmt.globalName?.toList)
    (natives : String → Bool) (globals : List String) :
    Stmt.listNotes (program.sight natives globals) program.stmts =
      program.stmts.flatMap (Stmt.notes (program.sight natives globals)) := by
  refine Stmt.listNotes_eq_flatMap rfl fun stmt hstmt name hname => ?_
  rw [h stmt hstmt, Option.mem_toList] at hname
  exact mem_append_left _ (mem_filterMap.2 ⟨stmt, hstmt, hname⟩)

/-- A node has one distance at most. -/
theorem distance_unique (hids : program.ids.Nodup) {start : Sight} {id : NodeId}
    {d d' : Nat} (h : Note.distance id d ∈ Stmt.listNotes start program.stmts)
    (h' : Note.distance id d' ∈ Stmt.listNotes start program.stmts) : d = d' := by
  obtain ⟨⟨sight, expr⟩, hseen, hnote⟩ := (Stmt.mem_listNotes _).1 h
  have hid := Expr.id?_of_mem_ownNotes hnote
  have hnote' :=
    (@mem_notes_iff program hids start sight expr hseen (.distance id d') hid).1 h'
  cases expr with
  | assign span id' name value =>
    simp only [Expr.ownNotes, Sight.mem_reference] at hnote hnote'
    rw [hnote] at hnote'
    cases hnote'
    rfl
  | var span id' name =>
    simp only [Expr.ownNotes, Sight.mem_reference] at hnote hnote'
    rw [hnote] at hnote'
    cases hnote'
    rfl
  | call span id' callee args => exact absurd hnote (Sight.distance_not_mem_call callee)
  | _ => cases hnote

end Program

namespace Resolution

/-- Findings that agree about a node, with one distance of it at most, leave the same
known about it. -/
theorem sameAt_ofNotes {notes notes' : List Note} {id : NodeId}
    (h : ∀ note : Note, note.id = id → (note ∈ notes ↔ note ∈ notes'))
    (hunique : ∀ d d', Note.distance id d ∈ notes →
      Note.distance id d' ∈ notes → d = d') :
    (ofNotes notes).SameAt (ofNotes notes') id := by
  constructor
  · obtain ⟨o, ho⟩ : ∃ o : Option Nat, ∀ d, Note.distance id d ∈ notes ↔
      o = some d := by
      by_cases hd : ∃ d, Note.distance id d ∈ notes
      · obtain ⟨d, hd⟩ := hd
        refine ⟨some d, fun d' => ⟨fun hd' => congrArg some (hunique d d' hd hd'), ?_⟩⟩
        rintro ⟨⟩
        exact hd
      · exact ⟨none, fun d =>
          ⟨fun hd' => absurd ⟨d, hd'⟩ hd, fun hnone => by cases hnone⟩⟩
    have ho' : ∀ d, Note.distance id d ∈ notes' ↔ o = some d :=
      fun d => (h (.distance id d) rfl).symm.trans (ho d)
    rw [distance?_ofNotes ho, distance?_ofNotes ho']
  · rw [Bool.eq_iff_iff, isNativeCall_ofNotes, isNativeCall_ofNotes]
    exact h (.nativeCall id) rfl

end Resolution

/-! ## Bodies that declare nothing around themselves -/

namespace Stmt

/-- Whether the bodies of an `if` or `while` are blocks or `if`s, down to the first
blocks. What stands in a block or a function is not looked at. -/
def braced : Stmt → Bool
  | branch _ _ onTrue none => onTrue.isAlternative && onTrue.braced
  | branch _ _ onTrue (some onFalse) =>
    onTrue.isAlternative && onTrue.braced && (onFalse.isAlternative && onFalse.braced)
  | loop _ _ body => body.isAlternative && body.braced
  | _ => true

private theorem declared_of_braced :
    ∀ {stmt : Stmt}, stmt.isAlternative = true → stmt.braced = true →
    stmt.declared = []
  | block .., _, _ => rfl
  | branch _ _ onTrue none, _, h => by
    simp only [braced, Bool.and_eq_true] at h
    rw [declared, declared_of_braced h.1 h.2]
  | branch _ _ onTrue (some onFalse), _, h => by
    simp only [braced, Bool.and_eq_true] at h
    obtain ⟨⟨htrue, htrue'⟩, hfalse, hfalse'⟩ := h
    rw [declared, declared_of_braced htrue htrue', declared_of_braced hfalse hfalse',
      append_nil]

/-- Such a statement declares around itself what it makes global at the top level. -/
private theorem declared_eq_of_braced {stmt : Stmt} (h : stmt.braced = true) :
    stmt.declared = stmt.globalName?.toList := by
  cases stmt with
  | branch span cond onTrue onFalse => exact declared_of_braced rfl h
  | loop span cond body =>
    simp only [braced, Bool.and_eq_true] at h
    rw [declared, declared_of_braced h.1 h.2]
    rfl
  | _ => rfl

end Stmt

/-! ## Classes that inherit from themselves -/

/-- The expression after the colon carries the name of the class. -/
def ClassDecl.InheritsItself (decl : ClassDecl) : Prop :=
  ∃ superclass, decl.superclass = some superclass ∧
    superclass.name? = some decl.name.node

mutual

/-- The class declarations in a statement, at any depth. -/
def Stmt.classes : Stmt → List ClassDecl
  | .block _ body => Stmt.listClasses body
  | .funcDecl _ decl => decl.classes
  | .classDecl _ decl => decl.classes
  | .branch _ _ onTrue none => onTrue.classes
  | .branch _ _ onTrue (some onFalse) => onTrue.classes ++ onFalse.classes
  | .loop _ _ body => body.classes
  | .print .. => []
  | .ret .. => []
  | .brk _ => []
  | .var .. => []
  | .expression .. => []

/-- The class declarations in statements. -/
def Stmt.listClasses : List Stmt → List ClassDecl
  | [] => []
  | stmt :: rest => stmt.classes ++ Stmt.listClasses rest

/-- The class declarations in a function. -/
def FunctionDecl.classes : FunctionDecl → List ClassDecl
  | .mk _ _ body _ => Stmt.listClasses body

/-- A class declaration and those in its methods. -/
def ClassDecl.classes : ClassDecl → List ClassDecl
  | .mk name superclass methods span =>
    .mk name superclass methods span :: FunctionDecl.listClasses methods

/-- The class declarations in functions. -/
def FunctionDecl.listClasses : List FunctionDecl → List ClassDecl
  | [] => []
  | decl :: rest => decl.classes ++ FunctionDecl.listClasses rest

end

/-- The class declarations in a program, at any depth. -/
def Program.classes (program : Program) : List ClassDecl :=
  Stmt.listClasses program.stmts

/-- What a class itself is at fault for. -/
def ClassDecl.itself? (decl : ClassDecl) : Option ResolveError :=
  decl.superclass.bind (ownFault? decl.name)

private theorem ClassDecl.isSome_itself? (decl : ClassDecl) :
    decl.itself?.isSome = true ↔ decl.InheritsItself := by
  unfold itself? InheritsItself
  cases decl.superclass with
  | none => simp
  | some superclass =>
    simp only [Option.bind_some, ownFault?, Option.some.injEq, exists_eq_left']
    split <;> simp_all

mutual

/-- A statement is at fault for the first of its classes that is. -/
private theorem Stmt.fault?_eq :
    ∀ stmt : Stmt, stmt.fault? = stmt.classes.findSome? ClassDecl.itself?
  | .block _ body => by rw [Stmt.fault?, Stmt.classes, Stmt.listFault?_eq body]
  | .funcDecl _ decl => by rw [Stmt.fault?, Stmt.classes, FunctionDecl.fault?_eq decl]
  | .classDecl _ decl => by rw [Stmt.fault?, Stmt.classes, ClassDecl.fault?_eq decl]
  | .branch _ _ onTrue none => by rw [Stmt.fault?, Stmt.classes, Stmt.fault?_eq onTrue]
  | .branch _ _ onTrue (some onFalse) => by
    rw [Stmt.fault?, Stmt.classes, List.findSome?_append, Stmt.fault?_eq onTrue,
      Stmt.fault?_eq onFalse]
  | .loop _ _ body => by rw [Stmt.fault?, Stmt.classes, Stmt.fault?_eq body]
  | .print .. => by simp [Stmt.fault?, Stmt.classes]
  | .ret .. => by simp [Stmt.fault?, Stmt.classes]
  | .brk _ => by simp [Stmt.fault?, Stmt.classes]
  | .var .. => by simp [Stmt.fault?, Stmt.classes]
  | .expression .. => by simp [Stmt.fault?, Stmt.classes]

private theorem Stmt.listFault?_eq : ∀ body : List Stmt,
    Stmt.listFault? body = (Stmt.listClasses body).findSome? ClassDecl.itself?
  | [] => by simp [Stmt.listFault?, Stmt.listClasses]
  | stmt :: rest => by
    rw [Stmt.listFault?, Stmt.listClasses, List.findSome?_append, Stmt.fault?_eq stmt,
      Stmt.listFault?_eq rest]

private theorem FunctionDecl.fault?_eq :
    ∀ decl : FunctionDecl, decl.fault? = decl.classes.findSome? ClassDecl.itself?
  | .mk _ _ body _ =>
    by rw [FunctionDecl.fault?, FunctionDecl.classes, Stmt.listFault?_eq body]

private theorem ClassDecl.fault?_eq :
    ∀ decl : ClassDecl, decl.fault? = decl.classes.findSome? ClassDecl.itself?
  | .mk _ none methods _ => by
    rw [ClassDecl.fault?, ClassDecl.classes, FunctionDecl.listFault?_eq methods]
    rfl
  | .mk name (some superclass) methods _ => by
    rw [ClassDecl.fault?, ClassDecl.classes, FunctionDecl.listFault?_eq methods,
      List.findSome?_cons]
    cases hown : ClassDecl.ownFault? name superclass <;>
      simp [ClassDecl.itself?, ClassDecl.superclass, ClassDecl.name, hown]

private theorem FunctionDecl.listFault?_eq : ∀ decls : List FunctionDecl,
    FunctionDecl.listFault? decls = (FunctionDecl.listClasses decls).findSome?
      ClassDecl.itself?
  | [] => by simp [FunctionDecl.listFault?, FunctionDecl.listClasses]
  | decl :: rest => by
    rw [FunctionDecl.listFault?, FunctionDecl.listClasses, List.findSome?_append,
      FunctionDecl.fault?_eq decl, FunctionDecl.listFault?_eq rest]

end

theorem Stmt.mem_listClasses {body : List Stmt} :
    decl ∈ Stmt.listClasses body ↔ ∃ stmt ∈ body, decl ∈ stmt.classes := by
  induction body with
  | nil => simp [listClasses]
  | cons stmt rest ih => simp [listClasses, ih]

/-! ## Orders of a program -/

namespace Program

variable {program other : Program} {natives : String → Bool} {globals : List String}
  {resolution : Resolution}

/-- A program is refused for a class that inherits from itself, and for nothing else. -/
private theorem resolve_eq_error_iff :
    (∃ fault, program.resolve natives globals = .error fault) ↔
    ∃ decl ∈ program.classes, decl.InheritsItself := by
  have hfault : (Stmt.listFault? program.stmts).isSome = true ↔
      ∃ decl ∈ program.classes, decl.InheritsItself := by
    simp only [Stmt.listFault?_eq, List.findSome?_isSome_iff,
      ClassDecl.isSome_itself?, classes]
  rw [← hfault, resolve]
  cases Stmt.listFault? program.stmts <;> simp

theorem resolve_eq_ok_iff :
    (∃ resolution, program.resolve natives globals = .ok resolution) ↔
    ¬∃ decl ∈ program.classes, decl.InheritsItself := by
  rw [← @resolve_eq_error_iff program natives globals]
  cases program.resolve natives globals <;> simp

/-- Another order of the top-level statements. -/
def Reordered (program other : Program) : Prop :=
  other.stmts.Perm program.stmts

section

variable (h : program.Reordered other)

include h

private theorem Reordered.mem_classes :
    decl ∈ other.classes ↔ decl ∈ program.classes := by
  simp only [classes, Stmt.mem_listClasses, List.Perm.mem_iff h]

private theorem Reordered.alike :
    (other.sight natives globals).Alike (program.sight natives globals) := by
  refine ⟨rfl, rfl, fun name _ => ?_⟩
  simp only [sight, mem_append, (List.Perm.filterMap _ h).mem_iff]

private theorem Reordered.mem_notes
    (hbraced : ∀ stmt ∈ program.stmts, stmt.braced = true) {note : Note} :
    note ∈ Stmt.listNotes (other.sight natives globals) other.stmts ↔
      note ∈ Stmt.listNotes (program.sight natives globals) program.stmts := by
  have hown := fun stmt hstmt => Stmt.declared_eq_of_braced (hbraced stmt hstmt)
  have hother : ∀ stmt ∈ other.stmts, stmt.declared = stmt.globalName?.toList :=
    fun stmt hstmt => hown stmt ((List.Perm.mem_iff h).1 hstmt)
  have hnotes : ∀ stmt : Stmt, stmt.notes (other.sight natives globals) =
      stmt.notes (program.sight natives globals) := Stmt.notes_alike h.alike
  rw [listNotes_eq hown, listNotes_eq hother]
  simp only [mem_flatMap, hnotes, List.Perm.mem_iff h]

/-- Two orders that are accepted are resolved alike. -/
theorem Reordered.sameAt {resolution' : Resolution} (hids : program.ids.Nodup)
    (hbraced : ∀ stmt ∈ program.stmts, stmt.braced = true)
    (hresolve : program.resolve natives globals = .ok resolution)
    (hresolve' : other.resolve natives globals = .ok resolution') (id : NodeId) :
    resolution.SameAt resolution' id := by
  rw [eq_ofNotes_of_resolve hresolve, eq_ofNotes_of_resolve hresolve']
  exact Resolution.sameAt_ofNotes (fun note _ => (h.mem_notes hbraced).symm)
    fun d d' => distance_unique hids

end

/-- **Resolution does not depend on the order of the top-level statements.** With
distinct numbers and braced bodies, a program is accepted if and only if each of its
orders is, all orders then have the same known about every node, and a program is
refused exactly for a class somewhere in it that inherits from itself. -/
theorem resolve_order_free (program : Program) (hids : program.ids.Nodup)
    (hbraced : ∀ stmt ∈ program.stmts, stmt.braced = true) (natives : String → Bool)
    (globals : List String) :
    ((∃ resolution, program.resolve natives globals = .ok resolution) ↔
      ∀ other, program.Reordered other →
        ∃ resolution, other.resolve natives globals = .ok resolution) ∧
    (∀ other other' resolution resolution', program.Reordered other →
      program.Reordered other' → other.resolve natives globals = .ok resolution →
      other'.resolve natives globals = .ok resolution' →
        ∀ id, resolution.SameAt resolution' id) ∧
    ((∃ fault, program.resolve natives globals = .error fault) ↔
      ∃ decl ∈ program.classes, decl.InheritsItself) := by
  have haccept : ∀ other, program.Reordered other →
      ((∃ resolution, program.resolve natives globals = .ok resolution) ↔
        ∃ resolution, other.resolve natives globals = .ok resolution) := by
    intro other hother
    simp only [resolve_eq_ok_iff, hother.mem_classes]
  refine ⟨⟨fun hok other hother => (haccept other hother).1 hok, fun h =>
    h program (.refl _)⟩, ?_, resolve_eq_error_iff⟩
  intro other other' resolution resolution' hother hother' hresolve hresolve' id
  -- Both are compared with the order of the program itself.
  obtain ⟨own, hown⟩ := (haccept other hother).2 ⟨resolution, hresolve⟩
  exact (hother.sameAt hids hbraced hown hresolve id).symm.trans
    (hother'.sameAt hids hbraced hown hresolve' id)

/-- A function calls a capability that a later variable shadows and one that nothing
shadows. -/
def shadowSource : String :=
  "func f(x) = { if (true) { x = clock(); } return beep(x); } var clock = 1;
    if (true) { class A = {} class B : A = {} }"

/-- The names in a registry with a capability of its own. -/
def beeper (name : String) : Bool :=
  name == "clock" || name == "beep"

theorem resolve_order_free_reverse :
    ∃ program next resolution resolution',
      Source.read 0 shadowSource = (.ok program, next) ∧ program.ids.Nodup ∧
      (∀ stmt ∈ program.stmts, stmt.braced = true) ∧
      program.resolve beeper [] = .ok resolution ∧
      (Program.mk program.stmts.reverse).resolve beeper [] = .ok resolution' ∧
      resolution.isNativeCall 1 = false ∧ resolution.isNativeCall 5 = true ∧
      resolution.distance? 2 = some 1 ∧ ∀ id, resolution.SameAt resolution' id := by
  have hfacts : ((Source.read 0 shadowSource).1.toOption.bind fun program =>
      (program.resolve beeper []).toOption.map fun resolution =>
        (program.stmts.all Stmt.braced, resolution.isNativeCall 1,
          resolution.isNativeCall 5, resolution.distance? 2)) =
          some (true, false, true, some 1) := by
    decide +kernel
  rcases hread : Source.read 0 shadowSource with ⟨result, next⟩
  rw [hread] at hfacts
  cases result with
  | error e => cases hfacts
  | ok program =>
    cases hresolve : program.resolve beeper [] with
    | error fault => simp [Except.toOption, hresolve] at hfacts
    | ok resolution =>
      simp only [Except.toOption, hresolve, Option.bind_some, Option.map_some,
        Option.some.injEq, Prod.mk.injEq, all_eq_true] at hfacts
      obtain ⟨hbraced, hshadowed, hnative, hdistance⟩ := hfacts
      have hids := Source.nodup_of_read hread
      obtain ⟨haccept, hsame, -⟩ := resolve_order_free program hids hbraced beeper []
      have hreverse : program.Reordered ⟨program.stmts.reverse⟩ := reverse_perm _
      obtain ⟨resolution', hresolve'⟩ := haccept.1 ⟨resolution, hresolve⟩ _ hreverse
      exact ⟨program, next, resolution, resolution', rfl, hids, hbraced, hresolve,
        hresolve', hshadowed, hnative, hdistance,
        hsame _ _ _ _ (.refl _) hreverse hresolve hresolve'⟩

end Program

end Treewalk
