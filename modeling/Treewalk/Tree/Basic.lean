import Treewalk.Span

/-!
# Program trees

Every expression and statement carries its place as its first field, so that a tree is
one plain inductive type and the place of a node is a projection (`Expr.span`,
`Stmt.span`). Variables, assignments and calls also carry a number that tells them apart
from every other such node: two references spelled alike are still two nodes, and what
is worked out about a node before a run is filed under this number.
-/

namespace Treewalk

/-- A name at its place. -/
abbrev Name := Located String

/-- The number of a variable, assignment or call node. -/
abbrev NodeId := Nat

/-! ## Operators and literals -/

/-- Operators that evaluate both operands. -/
inductive BinaryOp where
  | add | sub | mul | div | eq | ne | gt | ge | lt | le
deriving DecidableEq

/-- Operators that may leave their right operand alone. -/
inductive LogicalOp where
  | and | or
deriving DecidableEq

/-- Operators with one operand. -/
inductive UnaryOp where
  | neg | not
deriving DecidableEq

/-- Values written out in the source. -/
inductive Literal where
  | number (n : Int64)
  | string (s : String)
  | bool (b : Bool)
  | nil
deriving DecidableEq

/-! ## Expressions -/

/-- Expressions. -/
inductive Expr where
  /-- `name = value` -/
  | assign (span : Span) (id : NodeId) (name : String) (value : Expr)
  | binary (span : Span) (left : Expr) (op : BinaryOp) (right : Expr)
  /-- `callee(args)` -/
  | call (span : Span) (id : NodeId) (callee : Expr) (args : List Expr)
  /-- `object.name` -/
  | get (span : Span) (object : Expr) (name : Name)
  /-- An expression between parentheses, which belong to its place. -/
  | grouping (span : Span) (inner : Expr)
  | literal (span : Span) (value : Literal)
  | logical (span : Span) (left : Expr) (op : LogicalOp) (right : Expr)
  /-- `object.name = value` -/
  | set (span : Span) (object : Expr) (name : Name) (value : Expr)
  /-- `super.method` -/
  | super (span : Span) (method : Name)
  /-- The receiver of the method around it. -/
  | this (span : Span)
  | unary (span : Span) (op : UnaryOp) (operand : Expr)
  | var (span : Span) (id : NodeId) (name : String)

namespace Expr

/-- The place of an expression. -/
def span : Expr → Span
  | assign span .. => span
  | binary span .. => span
  | call span .. => span
  | get span .. => span
  | grouping span .. => span
  | literal span .. => span
  | logical span .. => span
  | set span .. => span
  | super span .. => span
  | this span => span
  | unary span .. => span
  | var span .. => span

/-- The name that a node carries itself: of a variable, an assignment target or a
property. -/
def name? : Expr → Option String
  | var _ _ name => some name
  | assign _ _ name _ => some name
  | get _ _ name => some name.node
  | set _ _ name _ => some name.node
  | super _ method => some method.node
  | _ => none

end Expr

/-! ## Statements -/

mutual

/-- Statements. -/
inductive Stmt where
  | block (span : Span) (body : List Stmt)
  | funcDecl (span : Span) (decl : FunctionDecl)
  | classDecl (span : Span) (decl : ClassDecl)
  | branch (span : Span) (cond : Expr) (onTrue : Stmt) (onFalse : Option Stmt)
  /-- `print(operand);`, or `printLine(operand);` when a line end follows. -/
  | print (span : Span) (newline : Bool) (operand : Option Expr)
  | ret (span : Span) (operand : Option Expr)
  | brk (span : Span)
  | var (span : Span) (name : Name) (init : Option Expr)
  | loop (span : Span) (cond : Expr) (body : Stmt)
  | expression (span : Span) (expr : Expr)

/-- A function or method. -/
inductive FunctionDecl where
  | mk (name : Name) (params : List Name) (body : List Stmt) (span : Span)

/-- A class with at most one superclass. -/
inductive ClassDecl where
  | mk (name : Name) (superclass : Option Expr) (methods : List FunctionDecl)
      (span : Span)

end

namespace FunctionDecl

/-- The declared name. -/
def name : FunctionDecl → Name
  | mk name _ _ _ => name

/-- The parameters in order. -/
def params : FunctionDecl → List Name
  | mk _ params _ _ => params

/-- The statements of the body. -/
def body : FunctionDecl → List Stmt
  | mk _ _ body _ => body

/-- The place of the whole declaration. -/
def span : FunctionDecl → Span
  | mk _ _ _ span => span

/-- The number of arguments that a call has to pass. -/
def arity (decl : FunctionDecl) : Nat :=
  decl.params.length

end FunctionDecl

namespace ClassDecl

/-- The declared name. -/
def name : ClassDecl → Name
  | mk name _ _ _ => name

/-- The expression after the colon; a parsed class has a variable there. -/
def superclass : ClassDecl → Option Expr
  | mk _ superclass _ _ => superclass

/-- The methods in order. -/
def methods : ClassDecl → List FunctionDecl
  | mk _ _ methods _ => methods

/-- The place of the whole declaration. -/
def span : ClassDecl → Span
  | mk _ _ _ span => span

end ClassDecl

namespace Stmt

/-- The place of a statement. -/
def span : Stmt → Span
  | block span .. => span
  | funcDecl span .. => span
  | classDecl span .. => span
  | branch span .. => span
  | print span .. => span
  | ret span .. => span
  | brk span => span
  | var span .. => span
  | loop span .. => span
  | expression span .. => span

/-- The name that a function or class declaration binds. -/
def declaredName? : Stmt → Option String
  | funcDecl _ decl => some decl.name.node
  | classDecl _ decl => some decl.name.node
  | _ => none

/-- Whether the statement declares a function or a class. -/
def isDeclaration : Stmt → Bool
  | funcDecl .. => true
  | classDecl .. => true
  | _ => false

end Stmt

/-! ## Programs -/

/-- A program: its top-level statements in order. -/
structure Program where
  stmts : List Stmt

end Treewalk
