import Mathlib.Data.List.Basic
import Treewalk.Proofs.Tree.Numbering

/-!
# The expressions in a program

Code runs piece by piece, and what is true of every expression of a program is true of
every piece of it. `Expr.parts`, `Stmt.parts` and their fellows list the expressions
that a tree is made of, parts before wholes, the bodies of functions and methods
included. The parts of a piece are among the parts of the whole, so a fact about all
parts is handed on to every piece. The numbers of the parts are the numbers of the tree,
in order (`Stmt.ids_listParts`), so where these are distinct a part is known by its
number.
-/

namespace Treewalk

open List

variable {exprs : List Expr}

namespace Expr

mutual

/-- The expressions that an expression is made of, itself last. -/
def parts : Expr → List Expr
  | assign span id name value => value.parts ++ [assign span id name value]
  | binary span left op right =>
    left.parts ++ right.parts ++ [binary span left op right]
  | call span id callee args =>
    callee.parts ++ listParts args ++ [call span id callee args]
  | get span object name => object.parts ++ [get span object name]
  | grouping span inner => inner.parts ++ [grouping span inner]
  | literal span value => [literal span value]
  | logical span left op right =>
    left.parts ++ right.parts ++ [logical span left op right]
  | set span object name value =>
    object.parts ++ value.parts ++ [set span object name value]
  | super span method => [super span method]
  | this span => [this span]
  | unary span op operand => operand.parts ++ [unary span op operand]
  | var span id name => [var span id name]

/-- The expressions that expressions are made of, from first to last. -/
def listParts : List Expr → List Expr
  | [] => []
  | expr :: rest => expr.parts ++ listParts rest

end

/-- The expressions in an expression that may be absent. -/
def optionParts : Option Expr → List Expr
  | none => []
  | some expr => expr.parts

/-- The number that a node carries itself. -/
def id? : Expr → Option NodeId
  | assign _ id _ _ => some id
  | call _ id _ _ => some id
  | var _ id _ => some id
  | _ => none

/-- The expressions right below an expression, in order. -/
def subs : Expr → List Expr
  | assign _ _ _ value => [value]
  | binary _ left _ right => [left, right]
  | call _ _ callee args => callee :: args
  | get _ object _ => [object]
  | grouping _ inner => [inner]
  | logical _ left _ right => [left, right]
  | set _ object _ value => [object, value]
  | unary _ _ operand => [operand]
  | _ => []

private theorem sizeOf_lt_of_mem_subs {expr sub : Expr} (h : sub ∈ expr.subs) :
    sizeOf sub < sizeOf expr := by
  cases expr with
  | call span id callee args =>
    rcases mem_cons.1 h with rfl | harg
    · simp +arith
    · have hlt := sizeOf_lt_of_mem harg
      simp only [call.sizeOf_spec]
      omega
  | _ => simp only [subs, mem_cons, not_mem_nil, or_false] at h <;> grind

/-- What an expression has whenever all right below it have it, every expression has. -/
@[elab_as_elim]
theorem induction_subs {motive : Expr → Prop}
    (step : ∀ expr, (∀ sub ∈ expr.subs, motive sub) → motive expr) (expr : Expr) :
    motive expr :=
  step expr fun sub _ => induction_subs step sub
termination_by sizeOf expr
decreasing_by exact sizeOf_lt_of_mem_subs ‹_›

theorem listParts_eq_flatMap (exprs : List Expr) :
    listParts exprs = exprs.flatMap parts := by
  induction exprs with
  | nil => rw [listParts, flatMap_nil]
  | cons expr rest ih => rw [listParts, flatMap_cons, ih]

private theorem parts_eq (expr : Expr) :
    expr.parts = expr.subs.flatMap parts ++ [expr] := by
  cases expr <;> simp [parts, subs, listParts_eq_flatMap]

theorem mem_parts {expr part : Expr} :
    part ∈ expr.parts ↔ (∃ sub ∈ expr.subs, part ∈ sub.parts) ∨ part = expr := by
  rw [parts_eq, mem_append, mem_flatMap, mem_singleton]

theorem self_mem_parts (expr : Expr) : expr ∈ expr.parts :=
  mem_parts.2 (.inr rfl)

theorem parts_subset_listParts {expr : Expr} (h : expr ∈ exprs) :
    expr.parts ⊆ listParts exprs := by
  rw [listParts_eq_flatMap]
  exact fun part hpart => mem_flatMap.2 ⟨expr, h, hpart⟩

/-- An expression of a list is among the parts of the list. -/
theorem mem_listParts {expr : Expr} (h : expr ∈ exprs) : expr ∈ listParts exprs :=
  parts_subset_listParts h expr.self_mem_parts

/-- The parts of a part are parts. -/
theorem closed_parts (expr : Expr) {part : Expr} (h : part ∈ expr.parts) :
    part.parts ⊆ expr.parts := by
  induction expr using induction_subs with
  | step expr ih =>
    rcases mem_parts.1 h with ⟨sub, hsub, hpart⟩ | rfl
    · exact fun inner hinner => mem_parts.2 (.inl ⟨sub, hsub, ih sub hsub hpart hinner⟩)
    · exact List.Subset.refl _

private theorem listIds_eq_flatMap (exprs : List Expr) :
    listIds exprs = exprs.flatMap ids := by
  induction exprs with
  | nil => rw [listIds, flatMap_nil]
  | cons expr rest ih => rw [listIds, flatMap_cons, ih]

/-- The numbers of the parts are the numbers of the expression, in order. -/
private theorem ids_parts (expr : Expr) : expr.parts.filterMap id? = expr.ids := by
  induction expr using induction_subs with
  | step expr ih =>
    have hids : expr.ids = expr.subs.flatMap ids ++ [expr].filterMap id? := by
      cases expr <;> simp [ids, subs, id?, listIds_eq_flatMap]
    rw [parts_eq, filterMap_append, filterMap_flatMap, flatMap_congr ih, hids]

private theorem ids_optionParts (expr : Option Expr) :
    (optionParts expr).filterMap id? = optionIds expr := by
  cases expr with
  | none => rfl
  | some expr => exact ids_parts expr

end Expr

mutual

/-- The expressions in a statement. -/
def Stmt.parts : Stmt → List Expr
  | .block _ body => Stmt.listParts body
  | .funcDecl _ decl => decl.parts
  | .classDecl _ decl => decl.parts
  | .branch _ cond onTrue none => cond.parts ++ onTrue.parts
  | .branch _ cond onTrue (some onFalse) =>
    cond.parts ++ (onTrue.parts ++ onFalse.parts)
  | .print _ _ operand => Expr.optionParts operand
  | .ret _ operand => Expr.optionParts operand
  | .brk _ => []
  | .var _ _ init => Expr.optionParts init
  | .loop _ cond body => cond.parts ++ body.parts
  | .expression _ expr => expr.parts

/-- The expressions in statements, from first to last. -/
def Stmt.listParts : List Stmt → List Expr
  | [] => []
  | stmt :: rest => stmt.parts ++ Stmt.listParts rest

/-- The expressions in a function. -/
def FunctionDecl.parts : FunctionDecl → List Expr
  | .mk _ _ body _ => Stmt.listParts body

/-- The expressions in a class. -/
def ClassDecl.parts : ClassDecl → List Expr
  | .mk _ superclass methods _ =>
    Expr.optionParts superclass ++ FunctionDecl.listParts methods

/-- The expressions in functions, from first to last. -/
def FunctionDecl.listParts : List FunctionDecl → List Expr
  | [] => []
  | decl :: rest => decl.parts ++ FunctionDecl.listParts rest

end

mutual

theorem Stmt.ids_parts : ∀ stmt : Stmt, stmt.parts.filterMap Expr.id? = stmt.ids
  | .block _ body => by simp [Stmt.parts, Stmt.ids, Stmt.ids_listParts body]
  | .funcDecl _ decl => by simp [Stmt.parts, Stmt.ids, FunctionDecl.ids_parts decl]
  | .classDecl _ decl => by simp [Stmt.parts, Stmt.ids, ClassDecl.ids_parts decl]
  | .branch _ cond onTrue none => by
    simp [Stmt.parts, Stmt.ids, Expr.ids_parts, Stmt.ids_parts onTrue]
  | .branch _ cond onTrue (some onFalse) => by
    simp [Stmt.parts, Stmt.ids, Expr.ids_parts, Stmt.ids_parts onTrue,
      Stmt.ids_parts onFalse]
  | .print .. => by simp [Stmt.parts, Stmt.ids, Expr.ids_optionParts]
  | .ret .. => by simp [Stmt.parts, Stmt.ids, Expr.ids_optionParts]
  | .brk _ => by simp [Stmt.parts, Stmt.ids]
  | .var .. => by simp [Stmt.parts, Stmt.ids, Expr.ids_optionParts]
  | .loop _ cond body =>
    by simp [Stmt.parts, Stmt.ids, Expr.ids_parts, Stmt.ids_parts body]
  | .expression .. => by simp [Stmt.parts, Stmt.ids, Expr.ids_parts]

/-- The numbers of the parts are the numbers of the statements, in order. -/
theorem Stmt.ids_listParts :
    ∀ body : List Stmt, (Stmt.listParts body).filterMap Expr.id? = Stmt.listIds body
  | [] => by simp [Stmt.listParts, Stmt.listIds]
  | stmt :: rest =>
    by simp [Stmt.listParts, Stmt.listIds, Stmt.ids_parts stmt, Stmt.ids_listParts rest]

private theorem FunctionDecl.ids_parts :
    ∀ decl : FunctionDecl, decl.parts.filterMap Expr.id? = decl.ids
  | .mk _ _ body _ =>
    by simp [FunctionDecl.parts, FunctionDecl.ids, Stmt.ids_listParts body]

private theorem ClassDecl.ids_parts :
    ∀ decl : ClassDecl, decl.parts.filterMap Expr.id? = decl.ids
  | .mk _ superclass methods _ => by
    simp [ClassDecl.parts, ClassDecl.ids, Expr.ids_optionParts,
      FunctionDecl.ids_listParts methods]

private theorem FunctionDecl.ids_listParts : ∀ decls : List FunctionDecl,
    (FunctionDecl.listParts decls).filterMap Expr.id? = FunctionDecl.listIds decls
  | [] => by simp [FunctionDecl.listParts, FunctionDecl.listIds]
  | decl :: rest => by
    simp [FunctionDecl.listParts, FunctionDecl.listIds, FunctionDecl.ids_parts decl,
      FunctionDecl.ids_listParts rest]

end

/-- The expressions that a statement evaluates itself. -/
def Stmt.operands : Stmt → List Expr
  | .classDecl _ decl => decl.superclass.toList
  | .branch _ cond _ _ => [cond]
  | .print _ _ operand => operand.toList
  | .ret _ operand => operand.toList
  | .var _ _ init => init.toList
  | .loop _ cond _ => [cond]
  | .expression _ expr => [expr]
  | _ => []

/-- The statements that a statement executes in its own environment. -/
def Stmt.branches : Stmt → List Stmt
  | .branch _ _ onTrue onFalse => onTrue :: onFalse.toList
  | .loop _ _ body => [body]
  | _ => []

/-- The expressions in a program. -/
def Program.parts (program : Program) : List Expr :=
  Stmt.listParts program.stmts

@[simp] theorem FunctionDecl.listParts_body (decl : FunctionDecl) :
    Stmt.listParts decl.body = decl.parts := by
  cases decl
  simp only [FunctionDecl.parts, FunctionDecl.body]

theorem ClassDecl.parts_eq (decl : ClassDecl) :
    decl.parts = Expr.optionParts decl.superclass ++ FunctionDecl.listParts
      decl.methods := by
  cases decl
  simp only [ClassDecl.parts, ClassDecl.superclass, ClassDecl.methods]

theorem Stmt.parts_subset_listParts {stmt : Stmt} {body : List Stmt} (h : stmt ∈ body) :
    stmt.parts ⊆ Stmt.listParts body := by
  induction body with
  | nil => cases h
  | cons first rest ih =>
    rw [Stmt.listParts]
    rcases mem_cons.1 h with rfl | hrest
    · exact subset_append_left _ _
    · exact subset_append_of_subset_right _ (ih hrest)

end Treewalk
