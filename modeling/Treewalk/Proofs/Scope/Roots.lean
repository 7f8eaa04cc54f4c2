import Treewalk.Proofs.Scope.Findings
import Treewalk.Proofs.Tree.Parts

/-!
# Expressions and the names in sight

What is found about a node depends on the names in sight at it, and all parts of one
expression have the same names in sight. So the whole expressions of a program are
listed with these (`Stmt.roots`), and the findings are those about their parts
(`Stmt.mem_listNotes`). In particular they are about nodes of the tree
(`Stmt.id_mem_of_mem_listNotes`).
-/

namespace Treewalk

open List

variable {roots : List (Sight × Expr)} {sight : Sight} {expr : Expr} {note : Note}

/-! ## Expressions with the names in sight -/

/-- The expression, if there is one. -/
def Sight.optionRoots (sight : Sight) : Option Expr → List (Sight × Expr)
  | none => []
  | some expr => [(sight, expr)]

mutual

/-- The whole expressions in a statement, each with the names in sight at it. -/
def Stmt.roots (sight : Sight) : Stmt → List (Sight × Expr)
  | .block _ body => Stmt.listRoots (sight.enter []) body
  | .funcDecl _ decl => decl.roots (sight.declare [decl.name.node])
  | .classDecl _ decl => decl.roots (sight.declare [decl.name.node])
  | .branch _ cond onTrue none => (sight, cond) :: onTrue.roots sight
  | .branch _ cond onTrue (some onFalse) =>
    (sight, cond) ::
      (onTrue.roots sight ++ onFalse.roots (sight.declare onTrue.declared))
  | .print _ _ operand => sight.optionRoots operand
  | .ret _ operand => sight.optionRoots operand
  | .brk _ => []
  | .var _ _ init => sight.optionRoots init
  | .loop _ cond body => (sight, cond) :: body.roots sight
  | .expression _ expr => [(sight, expr)]

/-- The expressions in statements, each in sight of what those before it declare. -/
def Stmt.listRoots (sight : Sight) : List Stmt → List (Sight × Expr)
  | [] => []
  | stmt :: rest =>
    stmt.roots sight ++ Stmt.listRoots (sight.declare stmt.declared) rest

/-- The expressions in a function. -/
def FunctionDecl.roots (sight : Sight) : FunctionDecl → List (Sight × Expr)
  | .mk _ params body _ => Stmt.listRoots (sight.enter (params.map (·.node))) body

/-- The expressions in a class. -/
def ClassDecl.roots (sight : Sight) : ClassDecl → List (Sight × Expr)
  | .mk _ none methods _ => FunctionDecl.listRoots (sight.enter ["this"]) methods
  | .mk _ (some superclass) methods _ =>
    (sight, superclass) :: FunctionDecl.listRoots
      ((sight.enter ["super"]).enter ["this"]) methods

/-- The expressions in methods. -/
def FunctionDecl.listRoots (sight : Sight) : List FunctionDecl → List (Sight × Expr)
  | [] => []
  | decl :: rest => decl.roots sight ++ FunctionDecl.listRoots sight rest

end

/-- The parts of the expressions, each with the names in sight at it. -/
def seen (roots : List (Sight × Expr)) : List (Sight × Expr) :=
  roots.flatMap fun root => root.2.parts.map fun expr => (root.1, expr)

@[simp] theorem seen_append (roots roots' : List (Sight × Expr)) :
    seen (roots ++ roots') = seen roots ++ seen roots' :=
  flatMap_append

@[simp] theorem seen_cons (sight : Sight) (expr : Expr) (rest : List (Sight × Expr)) :
    seen ((sight, expr) :: rest) = expr.parts.map (fun part => (sight, part)) ++
      seen rest :=
  flatMap_cons

@[simp] theorem map_snd_seen_optionRoots (sight : Sight) (expr : Option Expr) :
    (seen (sight.optionRoots expr)).map Prod.snd = Expr.optionParts expr := by
  cases expr <;> simp [Sight.optionRoots, seen, Expr.optionParts, Function.comp_def]

/-- With an expression its parts are seen, with the same names in sight. -/
theorem part_mem_seen (h : (sight, expr) ∈ seen roots) (part : Expr)
    (hpart : part ∈ expr.parts) :
    (sight, part) ∈ seen roots := by
  obtain ⟨root, hroot, hmem⟩ := mem_flatMap.1 h
  obtain ⟨expr', hexpr, heq⟩ := mem_map.1 hmem
  cases heq
  exact mem_flatMap.2 ⟨root, hroot,
    mem_map.2 ⟨part, root.2.closed_parts hexpr hpart, rfl⟩⟩

mutual

private theorem Stmt.map_snd_seen (sight : Sight) : ∀ stmt : Stmt,
    (seen (stmt.roots sight)).map Prod.snd = stmt.parts
  | .block _ body => by simp [Stmt.roots, Stmt.parts, Stmt.map_snd_seen_list _ body]
  | .funcDecl _ decl =>
    by simp [Stmt.roots, Stmt.parts, FunctionDecl.map_snd_seen _ decl]
  | .classDecl _ decl => by simp [Stmt.roots, Stmt.parts, ClassDecl.map_snd_seen _ decl]
  | .branch _ cond onTrue none => by
    simp [Stmt.roots, Stmt.parts, Stmt.map_snd_seen _ onTrue, Function.comp_def]
  | .branch _ cond onTrue (some onFalse) => by
    simp [Stmt.roots, Stmt.parts, Stmt.map_snd_seen _ onTrue,
      Stmt.map_snd_seen _ onFalse, Function.comp_def]
  | .print .. => by simp [Stmt.roots, Stmt.parts]
  | .ret .. => by simp [Stmt.roots, Stmt.parts]
  | .brk _ => by simp [Stmt.roots, Stmt.parts, seen]
  | .var .. => by simp [Stmt.roots, Stmt.parts]
  | .loop _ cond body => by
    simp [Stmt.roots, Stmt.parts, Stmt.map_snd_seen _ body, Function.comp_def]
  | .expression .. => by simp [Stmt.roots, Stmt.parts, seen, Function.comp_def]

/-- Without the names in sight, what is seen are the parts. -/
theorem Stmt.map_snd_seen_list (sight : Sight) : ∀ body : List Stmt,
    (seen (Stmt.listRoots sight body)).map Prod.snd = Stmt.listParts body
  | [] => by simp [Stmt.listRoots, Stmt.listParts, seen]
  | stmt :: rest => by
    simp [Stmt.listRoots, Stmt.listParts, Stmt.map_snd_seen _ stmt,
      Stmt.map_snd_seen_list _ rest]

private theorem FunctionDecl.map_snd_seen (sight : Sight) : ∀ decl : FunctionDecl,
    (seen (decl.roots sight)).map Prod.snd = decl.parts
  | .mk _ _ body _ =>
    by simp [FunctionDecl.roots, FunctionDecl.parts, Stmt.map_snd_seen_list _ body]

private theorem ClassDecl.map_snd_seen (sight : Sight) : ∀ decl : ClassDecl,
    (seen (decl.roots sight)).map Prod.snd = decl.parts
  | .mk _ none methods _ => by
    simp [ClassDecl.roots, ClassDecl.parts, Expr.optionParts,
      FunctionDecl.map_snd_seen_list _ methods]
  | .mk _ (some superclass) methods _ => by
    simp [ClassDecl.roots, ClassDecl.parts, Expr.optionParts,
      FunctionDecl.map_snd_seen_list _ methods, Function.comp_def]

private theorem FunctionDecl.map_snd_seen_list (sight : Sight) :
    ∀ decls : List FunctionDecl,
    (seen (FunctionDecl.listRoots sight decls)).map Prod.snd =
      FunctionDecl.listParts decls
  | [] => by simp [FunctionDecl.listRoots, FunctionDecl.listParts, seen]
  | decl :: rest => by
    simp [FunctionDecl.listRoots, FunctionDecl.listParts,
      FunctionDecl.map_snd_seen _ decl, FunctionDecl.map_snd_seen_list _ rest]

end

/-! ## Findings -/

/-- The node that a finding is about. -/
def Note.id : Note → NodeId
  | distance id _ => id
  | nativeCall id => id

namespace Sight

private theorem id_of_mem_reference {id : NodeId} {name : String}
    (h : note ∈ sight.reference id name) : note.id = id := by
  obtain ⟨d, _, rfl⟩ := Option.map_eq_some_iff.1 (mem_reference.1 h)
  rfl

private theorem id_of_mem_call {id : NodeId} {callee : Expr}
    (h : note ∈ sight.call id callee) : note.id = id := by
  unfold call at h
  split at h
  · split at h
    · rw [mem_singleton.1 h]
      rfl
    · cases h
  · cases h

end Sight

/-- The findings about an expression itself. -/
def Expr.ownNotes (sight : Sight) : Expr → List Note
  | .assign _ id name _ => sight.reference id name
  | .call _ id callee _ => sight.call id callee
  | .var _ id name => sight.reference id name
  | _ => []

theorem Expr.id?_of_mem_ownNotes (h : note ∈ expr.ownNotes sight) :
    expr.id? = some note.id := by
  cases expr with
  | assign _ _ _ _ => rw [Sight.id_of_mem_reference h, id?]
  | call _ _ _ _ => rw [Sight.id_of_mem_call h, id?]
  | var _ _ _ => rw [Sight.id_of_mem_reference h, id?]
  | _ => cases h

section Noted

variable {note : Note}

/-- A finding about a part of one of the expressions. -/
def Noted (roots : List (Sight × Expr)) (note : Note) : Prop :=
  ∃ entry ∈ seen roots, note ∈ entry.2.ownNotes entry.1

@[simp] theorem noted_nil : ¬Noted [] note := by
  simp [Noted, seen]

@[simp] theorem noted_append {roots' : List (Sight × Expr)} :
    Noted (roots ++ roots') note ↔ Noted roots note ∨ Noted roots' note := by
  simp [Noted, or_and_right, exists_or]

private theorem Expr.mem_listNotes (exprs : List Expr) :
    note ∈ Expr.listNotes sight exprs ↔ ∃ expr ∈ exprs, note ∈ expr.notes sight := by
  induction exprs with
  | nil => simp [listNotes]
  | cons expr rest ih => simp [listNotes, ih]

/-- The findings in an expression are those about its parts. -/
theorem Expr.mem_notes (expr : Expr) :
    note ∈ expr.notes sight ↔ ∃ part ∈ expr.parts, note ∈ part.ownNotes sight := by
  induction expr using induction_subs with
  | step expr ih =>
    have hnotes : note ∈ expr.notes sight ↔
        (∃ sub ∈ expr.subs, note ∈ sub.notes sight) ∨ note ∈ expr.ownNotes sight := by
      cases expr <;>
        simp [notes, subs, ownNotes, Expr.mem_listNotes, or_comm, or_left_comm]
    rw [hnotes, exists_congr fun sub => and_congr_right (ih sub)]
    constructor
    · rintro (⟨sub, hsub, part, hpart, hnote⟩ | hnote)
      · exact ⟨part, mem_parts.2 (.inl ⟨sub, hsub, hpart⟩), hnote⟩
      · exact ⟨expr, expr.self_mem_parts, hnote⟩
    · rintro ⟨part, hpart, hnote⟩
      rcases mem_parts.1 hpart with ⟨sub, hsub, hpart⟩ | rfl
      · exact .inl ⟨sub, hsub, part, hpart, hnote⟩
      · exact .inr hnote

@[simp] theorem noted_cons {rest : List (Sight × Expr)} :
    Noted ((sight, expr) :: rest) note ↔ note ∈ expr.notes sight ∨ Noted rest note := by
  simp only [Noted, seen_cons, mem_append, or_and_right, exists_or, mem_map,
    Expr.mem_notes expr]
  refine or_congr_left ⟨?_, ?_⟩
  · rintro ⟨_, ⟨part, hpart, rfl⟩, hnote⟩
    exact ⟨part, hpart, hnote⟩
  · rintro ⟨part, hpart, hnote⟩
    exact ⟨(sight, part), ⟨part, hpart, rfl⟩, hnote⟩

@[simp] theorem noted_optionRoots {expr : Option Expr} :
    Noted (sight.optionRoots expr) note ↔ note ∈ Expr.optionNotes sight expr := by
  cases expr <;> simp [Sight.optionRoots, Expr.optionNotes]

mutual

private theorem Stmt.mem_notes {sight : Sight} : ∀ stmt : Stmt,
    note ∈ stmt.notes sight ↔ Noted (stmt.roots sight) note
  | .block _ body => by simp [Stmt.notes, Stmt.roots, Stmt.mem_listNotes body]
  | .funcDecl _ decl => by simp [Stmt.notes, Stmt.roots, FunctionDecl.mem_notes decl]
  | .classDecl _ decl => by simp [Stmt.notes, Stmt.roots, ClassDecl.mem_notes decl]
  | .branch _ cond onTrue none =>
    by simp [Stmt.notes, Stmt.roots, Stmt.mem_notes onTrue]
  | .branch _ cond onTrue (some onFalse) => by
    simp [Stmt.notes, Stmt.roots, Stmt.mem_notes onTrue, Stmt.mem_notes onFalse]
  | .print .. => by simp [Stmt.notes, Stmt.roots]
  | .ret .. => by simp [Stmt.notes, Stmt.roots]
  | .brk _ => by simp [Stmt.notes, Stmt.roots]
  | .var .. => by simp [Stmt.notes, Stmt.roots]
  | .loop _ cond body => by simp [Stmt.notes, Stmt.roots, Stmt.mem_notes body]
  | .expression .. => by simp [Stmt.notes, Stmt.roots]

/-- The findings in statements are those about the parts of their expressions. -/
theorem Stmt.mem_listNotes {sight : Sight} : ∀ body : List Stmt,
    note ∈ Stmt.listNotes sight body ↔ Noted (Stmt.listRoots sight body) note
  | [] => by simp [Stmt.listNotes, Stmt.listRoots]
  | stmt :: rest => by
    simp [Stmt.listNotes, Stmt.listRoots, Stmt.mem_notes stmt, Stmt.mem_listNotes rest]

private theorem FunctionDecl.mem_notes {sight : Sight} : ∀ decl : FunctionDecl,
    note ∈ decl.notes sight ↔ Noted (decl.roots sight) note
  | .mk _ _ body _ =>
    by simp [FunctionDecl.notes, FunctionDecl.roots, Stmt.mem_listNotes body]

private theorem ClassDecl.mem_notes {sight : Sight} : ∀ decl : ClassDecl,
    note ∈ decl.notes sight ↔ Noted (decl.roots sight) note
  | .mk _ none methods _ => by
    simp [ClassDecl.notes, ClassDecl.roots, FunctionDecl.mem_listNotes methods]
  | .mk _ (some superclass) methods _ => by
    simp [ClassDecl.notes, ClassDecl.roots, FunctionDecl.mem_listNotes methods]

private theorem FunctionDecl.mem_listNotes {sight : Sight} :
    ∀ decls : List FunctionDecl,
    note ∈ FunctionDecl.listNotes sight decls ↔
      Noted (FunctionDecl.listRoots sight decls) note
  | [] => by simp [FunctionDecl.listNotes, FunctionDecl.listRoots]
  | decl :: rest => by
    simp [FunctionDecl.listNotes, FunctionDecl.listRoots, FunctionDecl.mem_notes decl,
      FunctionDecl.mem_listNotes rest]

end

private theorem Noted.id_mem (h : Noted roots note) :
    note.id ∈ ((seen roots).map Prod.snd).filterMap Expr.id? := by
  obtain ⟨entry, hentry, hnote⟩ := h
  exact mem_filterMap.2
    ⟨entry.2, mem_map_of_mem hentry, Expr.id?_of_mem_ownNotes hnote⟩

/-- A finding in a statement is about one of its nodes. -/
theorem Stmt.id_mem_of_mem_notes {stmt : Stmt} (h : note ∈ stmt.notes sight) :
    note.id ∈ stmt.ids := by
  have hid := ((Stmt.mem_notes stmt).1 h).id_mem
  rwa [Stmt.map_snd_seen, Stmt.ids_parts] at hid

theorem Stmt.id_mem_of_mem_listNotes {body : List Stmt}
    (h : note ∈ Stmt.listNotes sight body) :
    note.id ∈ Stmt.listIds body := by
  have hid := ((Stmt.mem_listNotes body).1 h).id_mem
  rwa [Stmt.map_snd_seen_list, Stmt.ids_listParts] at hid

end Noted

end Treewalk
