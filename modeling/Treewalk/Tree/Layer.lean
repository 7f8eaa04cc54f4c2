import Treewalk.Token.Basic
import Treewalk.Tree.Basic

/-!
# Unfinished constructs

What a parser has read but not yet finished: constructs that await more (`Layer`), a
place inside the innermost one (`Focus`), and operators that await their right operand.
Closing operators turns layers into expressions: `closeOperators` down to a level of
binding, `closeExpression` down to the construct that the expression stands in.
-/

namespace Treewalk

/-! ## Unfinished constructs -/

/-- An unfinished construct. Lists of finished parts are held in reverse. -/
inductive Layer where
  /-- The whole program. -/
  | program (done : List Stmt)
  /-- A block statement, its brace at `start`. -/
  | block (start : Nat) (done : List Stmt)
  | functionBody (start : Nat) (name : Name) (params : List Name) (done : List Stmt)
  | classBody (start : Nat) (name : Name) (superclass : Option Expr)
      (methods : List FunctionDecl)
  /-- The first branch of an `if` that starts at `start`, its brace at `brace`. -/
  | thenBody (start : Nat) (cond : Expr) (brace : Nat) (done : List Stmt)
  | elseBody (start : Nat) (cond : Expr) (onTrue : Stmt) (brace : Nat)
      (done : List Stmt)
  /-- An `if` whose second branch is the `if` above it. -/
  | elseIf (start : Nat) (cond : Expr) (onTrue : Stmt)
  | loopBody (start : Nat) (cond : Expr) (brace : Nat) (done : List Stmt)
  /-- The initial value of a variable. -/
  | varInit (start : Nat) (name : Name)
  | printOperand (start : Nat) (newline : Bool)
  | retOperand (start : Nat)
  | branchCond (start : Nat)
  | loopCond (start : Nat)
  /-- An expression that is a statement. -/
  | statement (start : Nat)
  | grouping (start : Nat)
  | arguments (callee : Expr) (done : List Expr)
  /-- The value of an assignment to a name. -/
  | assign (start : Nat) (name : String)
  /-- The value of an assignment to a property. -/
  | set (object : Expr) (name : Name)
  | binary (left : Expr) (op : BinaryOp)
  | logical (left : Expr) (op : LogicalOp)
  | unary (start : Nat) (op : UnaryOp)

/-- The place inside the innermost construct. Comments name the tokens that are
awaited. -/
inductive Focus where
  /-- A declaration or statement, or the end of the body. -/
  | declaration
  /-- A method, or the end of the class. -/
  | member
  /-- An operand, or the end of an empty list or operand. -/
  | operand
  /-- A name in the place of an operand: a variable, or the target of an assignment. -/
  | ident (span : Span) (name : String)
  /-- A call that has read its closing parenthesis and awaits the token that finishes
  it. -/
  | called (span : Span) (callee : Expr) (args : List Expr)
  /-- An operand with its calls and properties, which may still be followed by more of
  them. -/
  | complete (e : Expr)
  /-- The name after `object.`. -/
  | propertyName (object : Expr)
  /-- The dot after `super`. -/
  | superDot (start : Nat)
  | superName (start : Nat)
  | funcName (start : Nat)
  /-- The parenthesis after a function's name. -/
  | funcOpen (start : Nat) (name : Name)
  /-- A parameter, or the closing parenthesis. -/
  | param (start : Nat) (name : Name) (params : List Name)
  /-- A comma or the closing parenthesis after a parameter. -/
  | paramNext (start : Nat) (name : Name) (params : List Name)
  /-- The `=` before a function's body. -/
  | funcEq (start : Nat) (name : Name) (params : List Name)
  | funcBrace (start : Nat) (name : Name) (params : List Name)
  | className (start : Nat)
  /-- A colon or `=` after a class's name. -/
  | classNext (start : Nat) (name : Name)
  | superclassName (start : Nat) (name : Name)
  /-- The `=` after a superclass. -/
  | classEq (start : Nat) (name superclass : Name)
  | classBrace (start : Nat) (name : Name) (superclass : Option Expr)
  | varName (start : Nat)
  /-- `=` or a semicolon after a variable's name. -/
  | varNext (start : Nat) (name : Name)
  | printOpen (start : Nat) (newline : Bool)
  /-- The semicolon after `print(...)`. -/
  | printEnd (start : Nat) (newline : Bool) (operand : Option Expr)
  | brkEnd (start : Nat)
  | branchOpen (start : Nat)
  | branchBrace (start : Nat) (cond : Expr)
  /-- `else`, or whatever follows an `if` without it. -/
  | branchNext (start : Nat) (cond : Expr) (onTrue : Stmt)
  /-- A brace or `if` after `else`. -/
  | elseNext (start : Nat) (cond : Expr) (onTrue : Stmt)
  | loopOpen (start : Nat)
  | loopBrace (start : Nat) (cond : Expr)

namespace Layer

/-- Whether an operand in this construct belongs to an operator, so that no assignment
starts there. -/
def isOperator : Layer → Bool
  | binary .. => true
  | logical .. => true
  | unary .. => true
  | _ => false

/-- Adds a statement to the body that is being read. -/
def addStmt (s : Stmt) : Layer → Option Layer
  | program done => some (program (s :: done))
  | block start done => some (block start (s :: done))
  | functionBody start name params done =>
    some (functionBody start name params (s :: done))
  | thenBody start cond brace done => some (thenBody start cond brace (s :: done))
  | elseBody start cond onTrue brace done =>
    some (elseBody start cond onTrue brace (s :: done))
  | loopBody start cond brace done => some (loopBody start cond brace (s :: done))
  | _ => none

end Layer

/-! ## Operators -/

/-- How tightly an operator binds, from `or` to the products. -/
def BinaryOp.level : BinaryOp → Nat
  | eq | ne => 3
  | gt | ge | lt | le => 4
  | add | sub => 5
  | mul | div => 6

/-- How tightly a logical operator binds. -/
def LogicalOp.level : LogicalOp → Nat
  | or => 1
  | and => 2

/-- An operator between two operands. -/
inductive Operator where
  | binary (op : BinaryOp)
  | logical (op : LogicalOp)

namespace Operator

/-- How tightly an operator between two operands binds. -/
def level : Operator → Nat
  | binary op => op.level
  | logical op => op.level

/-- The operator that a token spells between two operands, if any. -/
def ofToken? : Token → Option Operator
  | .sign .plus => some (binary .add)
  | .sign .minus => some (binary .sub)
  | .sign .star => some (binary .mul)
  | .sign .slash => some (binary .div)
  | .sign .eqEq => some (binary .eq)
  | .sign .notEq => some (binary .ne)
  | .sign .gt => some (binary .gt)
  | .sign .gtEq => some (binary .ge)
  | .sign .lt => some (binary .lt)
  | .sign .ltEq => some (binary .le)
  | .word .and => some (logical .and)
  | .word .or => some (logical .or)
  | _ => none

/-- The construct that awaits the right operand. -/
def layer (left : Expr) : Operator → Layer
  | binary op => .binary left op
  | logical op => .logical left op

end Operator

/-- Whether a token can end an expression somewhere. -/
def Token.endsExpression : Token → Bool
  | .sign .semi => true
  | .sign .rparen => true
  | .sign .comma => true
  | _ => false

/-- Whether a token can follow an operand somewhere: a call, a property, an operator or
an end. -/
def Token.followsOperand (t : Token) : Bool :=
  match t with
  | .sign .lparen => true
  | .sign .dot => true
  | t => (Operator.ofToken? t).isSome || t.endsExpression

/-- Closes the operators on top that bind at least as tightly as `level`. -/
def closeOperators (level : Nat) : List Layer → Expr → List Layer × Expr
  | .unary start op :: layers, e =>
    closeOperators level layers (.unary ⟨start, e.span.stop⟩ op e)
  | .binary left op :: layers, e =>
    if level ≤ op.level then
      closeOperators level layers (.binary (left.span.merge e.span) left op e)
    else (.binary left op :: layers, e)
  | .logical left op :: layers, e =>
    if level ≤ op.level then
      closeOperators level layers (.logical (left.span.merge e.span) left op e)
    else (.logical left op :: layers, e)
  | layers, e => (layers, e)

/-- Closes the assignments and all operators on top, numbering the assignments. The
expression ends at `stop`, and so does every assignment that it is the value of. -/
def closeExpression (stop : Nat) :
    List Layer → Expr → NodeId → List Layer × Expr × NodeId
  | .unary start op :: layers, e, next =>
    closeExpression stop layers (.unary ⟨start, e.span.stop⟩ op e) next
  | .binary left op :: layers, e, next =>
    closeExpression stop layers (.binary (left.span.merge e.span) left op e) next
  | .logical left op :: layers, e, next =>
    closeExpression stop layers (.logical (left.span.merge e.span) left op e) next
  | .assign start name :: layers, e, next =>
    closeExpression stop layers (.assign ⟨start, stop⟩ next name e) (next + 1)
  | .set object name :: layers, e, next =>
    closeExpression stop layers (.set ⟨object.span.start, stop⟩ object name e) next
  | layers, e, next => (layers, e, next)

end Treewalk
