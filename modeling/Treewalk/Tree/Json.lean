import Treewalk.Json.Basic
import Treewalk.Tree.Basic

/-!
# Trees as JSON

A node is an object with its `node` and its `span`. A node's alternative is a bare name
if it carries nothing (`"Break"`), and otherwise an object with the alternative's name
as its one field. Writing (`Program.toJson`) gives fields in a fixed order and `null`
for what is absent. Reading (`Program.ofJson?`) is more tolerant: fields may come in any
order, absent parts may be left out, unknown fields are ignored, and a bare alternative
may also be written with `null` after its name. Numbers have to be in range: literals
are 64-bit signed, node numbers 32-bit, offsets 64-bit.
-/

namespace Treewalk

/-! ## Writing -/

/-- The fields of a place. -/
def Span.toJson (s : Span) : Json :=
  .object [("start", .int s.start), ("end", .int s.stop)]

/-- A node at its place. -/
def Json.located (node : Json) (span : Span) : Json :=
  .object [("node", node), ("span", span.toJson)]

/-- A name at its place. -/
def Name.toJson (name : Name) : Json :=
  .located (.string name.node) name.span

/-- The value, or `null`. -/
def Json.ofOption {α : Type} (write : α → Json) : Option α → Json
  | some a => write a
  | none => .null

/-- The name of a binary operator's alternative. -/
def BinaryOp.label : BinaryOp → String
  | add => "Add"
  | sub => "Sub"
  | mul => "Mul"
  | div => "Div"
  | eq => "Eq"
  | ne => "Ne"
  | gt => "Gt"
  | ge => "Ge"
  | lt => "Lt"
  | le => "Le"

/-- The name of a logical operator's alternative. -/
def LogicalOp.label : LogicalOp → String
  | and => "And"
  | or => "Or"

/-- The name of a unary operator's alternative. -/
def UnaryOp.label : UnaryOp → String
  | neg => "Neg"
  | not => "Not"

/-- A literal. -/
def Literal.toJson : Literal → Json
  | number n => .object [("Number", .int n.toInt)]
  | string s => .object [("String", .string s)]
  | bool b => .object [("Bool", .bool b)]
  | nil => .string "Nil"

mutual

/-- An expression at its place. -/
def Expr.toJson : Expr → Json
  | .assign span id name value => .located
      (.object [("Assign", .object
        [("id", .int id), ("name", .string name), ("value", value.toJson)])]) span
  | .binary span left op right => .located
      (.object [("Binary", .object
        [("left", left.toJson), ("op", .string op.label), ("right", right.toJson)])])
          span
  | .call span id callee args => .located
      (.object [("Call", .object
        [("id", .int id), ("callee", callee.toJson),
          ("args", .array (Expr.listToJson args))])]) span
  | .get span object name => .located
      (.object [("Get", .object [("object", object.toJson), ("name", name.toJson)])])
        span
  | .grouping span inner => .located (.object [("Grouping", inner.toJson)]) span
  | .literal span value => .located (.object [("Literal", value.toJson)]) span
  | .logical span left op right => .located
      (.object [("Logical", .object
        [("left", left.toJson), ("op", .string op.label), ("right", right.toJson)])])
          span
  | .set span object name value => .located
      (.object [("Set", .object
        [("object", object.toJson), ("name", name.toJson), ("value", value.toJson)])])
          span
  | .super span method => .located
      (.object [("Super", .object [("method", method.toJson)])]) span
  | .this span => .located (.string "This") span
  | .unary span op operand => .located
      (.object
        [("Unary", .object [("op", .string op.label), ("expr", operand.toJson)])]) span
  | .var span id name => .located
      (.object [("Variable", .object [("id", .int id), ("name", .string name)])]) span

/-- Expressions in order. -/
def Expr.listToJson : List Expr → List Json
  | [] => []
  | e :: es => e.toJson :: Expr.listToJson es

end

mutual

/-- A statement at its place. -/
def Stmt.toJson : Stmt → Json
  | .block span body =>
    .located (.object [("Block", .array (Stmt.listToJson body))]) span
  | .funcDecl span decl => .located (.object [("Function", decl.toJson)]) span
  | .classDecl span decl => .located (.object [("Class", decl.toJson)]) span
  | .branch span cond onTrue onFalse => .located
      (.object [("If", .object
        [("cond", cond.toJson), ("then_branch", onTrue.toJson),
         ("else_branch", Stmt.optionToJson onFalse)])]) span
  | .print span newline operand => .located
      (.object
        [(if newline then "PrintLine" else "Print", .ofOption Expr.toJson operand)])
        span
  | .ret span operand =>
    .located (.object [("Return", .ofOption Expr.toJson operand)]) span
  | .brk span => .located (.string "Break") span
  | .var span name init => .located
      (.object
        [("Var",
          .object [("name", name.toJson), ("init", .ofOption Expr.toJson init)])]) span
  | .loop span cond body => .located
      (.object [("While", .object [("cond", cond.toJson), ("body", body.toJson)])]) span
  | .expression span expr => .located (.object [("Expression", expr.toJson)]) span

/-- Statements in order. -/
def Stmt.listToJson : List Stmt → List Json
  | [] => []
  | s :: ss => s.toJson :: Stmt.listToJson ss

/-- A statement that may be absent. -/
def Stmt.optionToJson : Option Stmt → Json
  | some s => s.toJson
  | none => .null

/-- A function or method. -/
def FunctionDecl.toJson : FunctionDecl → Json
  | .mk name params body span =>
    .object
      [("name", name.toJson), ("params", .array (params.map Name.toJson)),
       ("body", .array (Stmt.listToJson body)), ("span", span.toJson)]

/-- Functions in order. -/
def FunctionDecl.listToJson : List FunctionDecl → List Json
  | [] => []
  | d :: ds => d.toJson :: FunctionDecl.listToJson ds

/-- A class. -/
def ClassDecl.toJson : ClassDecl → Json
  | .mk name superclass methods span =>
    .object
      [("name", name.toJson), ("superclass", .ofOption Expr.toJson superclass),
       ("methods", .array (FunctionDecl.listToJson methods)), ("span", span.toJson)]

end

/-- A program. -/
def Program.toJson (program : Program) : Json :=
  .object [("stmts", .array (Stmt.listToJson program.stmts))]

/-! ## Reading -/

/-- An offset: a natural number of 64 bits. -/
def Json.offset? (j : Json) : Option Nat :=
  (j.intIn? 0 0x10000000000000000).map Int.toNat

/-- A node number: a natural number of 32 bits. -/
def Json.nodeId? (j : Json) : Option NodeId :=
  (j.intIn? 0 0x100000000).map Int.toNat

/-- A place. -/
def Span.ofJson? (j : Json) : Option Span := do
  let some [some start, some stop] := j.record? ["start", "end"] | none
  return ⟨← start.offset?, ← stop.offset?⟩

/-- A node at its place, given how to read the node. -/
def Json.located? {α : Type} (read : Span → Json → Option α) (j : Json) : Option α := do
  let some [some node, some span] := j.record? ["node", "span"] | none
  read (← Span.ofJson? span) node

/-- A name at its place. -/
def Name.ofJson? : Json → Option Name :=
  Json.located? fun span j => j.string?.map (⟨·, span⟩)

/-- An alternative that carries nothing. -/
def Json.bare? {α : Type} (alternatives : List (String × α)) (j : Json) : Option α := do
  let (name, payload) ← j.tagged?
  if Json.isBare payload then
    (alternatives.find? fun a => a.1 == name).map (·.2)
  else
    none

/-- A binary operator. -/
def BinaryOp.ofJson? : Json → Option BinaryOp :=
  Json.bare? ([add, sub, mul, div, eq, ne, gt, ge, lt, le].map fun op => (op.label, op))

/-- A logical operator. -/
def LogicalOp.ofJson? : Json → Option LogicalOp :=
  Json.bare? ([and, or].map fun op => (op.label, op))

/-- A unary operator. -/
def UnaryOp.ofJson? : Json → Option UnaryOp :=
  Json.bare? ([neg, not].map fun op => (op.label, op))

/-- A literal. -/
def Literal.ofJson? (j : Json) : Option Literal := do
  match ← j.tagged? with
  | ("Number", some n) =>
    return .number (Int64.ofInt (← n.intIn? (-0x8000000000000000) 0x8000000000000000))
  | ("String", some (.string s)) => return .string s
  | ("Bool", some (.bool b)) => return .bool b
  | ("Nil", payload) => if Json.isBare payload then return .nil else none
  | _ => none

/-- An expression's node, given how to read the expressions inside it. -/
def Expr.ofNode? (read : Json → Option Expr) (span : Span) (j : Json) :
    Option Expr := do
  match ← j.tagged? with
  | ("Assign", some p) =>
    let some [some id, some name, some value] :=
      p.fields? ["id", "name", "value"] | none
    return .assign span (← id.nodeId?) (← name.string?) (← read value)
  | ("Binary", some p) =>
    let some [some left, some op, some right] :=
      p.fields? ["left", "op", "right"] | none
    return .binary span (← read left) (← BinaryOp.ofJson? op) (← read right)
  | ("Call", some p) =>
    let some [some id, some callee, some args] :=
      p.fields? ["id", "callee", "args"] | none
    return .call span (← id.nodeId?) (← read callee) (← (← args.items?).mapM read)
  | ("Get", some p) =>
    let some [some object, some name] := p.fields? ["object", "name"] | none
    return .get span (← read object) (← Name.ofJson? name)
  | ("Grouping", some p) => return .grouping span (← read p)
  | ("Literal", some p) => return .literal span (← Literal.ofJson? p)
  | ("Logical", some p) =>
    let some [some left, some op, some right] :=
      p.fields? ["left", "op", "right"] | none
    return .logical span (← read left) (← LogicalOp.ofJson? op) (← read right)
  | ("Set", some p) =>
    let some [some object, some name, some value] :=
      p.fields? ["object", "name", "value"] | none
    return .set span (← read object) (← Name.ofJson? name) (← read value)
  | ("Super", some p) =>
    let some [some method] := p.fields? ["method"] | none
    return .super span (← Name.ofJson? method)
  | ("This", payload) => if Json.isBare payload then return .this span else none
  | ("Unary", some p) =>
    let some [some op, some operand] := p.fields? ["op", "expr"] | none
    return .unary span (← UnaryOp.ofJson? op) (← read operand)
  | ("Variable", some p) =>
    let some [some id, some name] := p.fields? ["id", "name"] | none
    return .var span (← id.nodeId?) (← name.string?)
  | _ => none

/-- An expression nested at most so deep. -/
def Expr.ofJsonWithin? : Nat → Json → Option Expr
  | 0, _ => none
  | depth + 1, j => Json.located? (Expr.ofNode? (Expr.ofJsonWithin? depth)) j

/-- An expression. -/
def Expr.ofJson? (j : Json) : Option Expr :=
  Expr.ofJsonWithin? j.depth j

/-- A function or method, given how to read its statements. -/
def FunctionDecl.ofJson? (read : Json → Option Stmt) (j : Json) :
    Option FunctionDecl := do
  let some [some name, some params, some body, some span] :=
    j.record? ["name", "params", "body", "span"] | none
  return .mk (← Name.ofJson? name) (← (← params.items?).mapM Name.ofJson?)
    (← (← body.items?).mapM read) (← Span.ofJson? span)

/-- A class, given how to read the statements of its methods. -/
def ClassDecl.ofJson? (read : Json → Option Stmt) (j : Json) : Option ClassDecl := do
  let some [some name, superclass, some methods, some span] :=
    j.record? ["name", "superclass", "methods", "span"] | none
  return .mk (← Name.ofJson? name) (← Json.optional? Expr.ofJson? superclass)
    (← (← methods.items?).mapM (FunctionDecl.ofJson? read)) (← Span.ofJson? span)

/-- A statement's node, given how to read the statements inside it. -/
def Stmt.ofNode? (read : Json → Option Stmt) (span : Span) (j : Json) :
    Option Stmt := do
  match ← j.tagged? with
  | ("Block", some p) => return .block span (← (← p.items?).mapM read)
  | ("Function", some p) => return .funcDecl span (← FunctionDecl.ofJson? read p)
  | ("Class", some p) => return .classDecl span (← ClassDecl.ofJson? read p)
  | ("If", some p) =>
    let some [some cond, some onTrue, onFalse] :=
      p.fields? ["cond", "then_branch", "else_branch"] | none
    return .branch span (← Expr.ofJson? cond) (← read onTrue)
      (← Json.optional? read onFalse)
  | ("Print", some p) =>
    return .print span false (← Json.optional? Expr.ofJson? (some p))
  | ("PrintLine", some p) =>
    return .print span true (← Json.optional? Expr.ofJson? (some p))
  | ("Return", some p) => return .ret span (← Json.optional? Expr.ofJson? (some p))
  | ("Break", payload) => if Json.isBare payload then return .brk span else none
  | ("Var", some p) =>
    let some [some name, init] := p.fields? ["name", "init"] | none
    return .var span (← Name.ofJson? name) (← Json.optional? Expr.ofJson? init)
  | ("While", some p) =>
    let some [some cond, some body] := p.fields? ["cond", "body"] | none
    return .loop span (← Expr.ofJson? cond) (← read body)
  | ("Expression", some p) => return .expression span (← Expr.ofJson? p)
  | _ => none

/-- A statement nested at most so deep. -/
def Stmt.ofJsonWithin? : Nat → Json → Option Stmt
  | 0, _ => none
  | depth + 1, j => Json.located? (Stmt.ofNode? (Stmt.ofJsonWithin? depth)) j

/-- A statement. -/
def Stmt.ofJson? (j : Json) : Option Stmt :=
  Stmt.ofJsonWithin? j.depth j

/-- A program. -/
def Program.ofJson? (j : Json) : Option Program := do
  let some [some stmts] := j.record? ["stmts"] | none
  return ⟨← (← stmts.items?).mapM Stmt.ofJson?⟩

end Treewalk
