import Treewalk.Token.Basic
import Treewalk.Tree.Layer

/-!
# From tokens to a tree

The parser reads one token at a time and never looks back. What it has read so far is a
stack of unfinished constructs (`Layer`, innermost first) and a `Focus`, the place
inside the innermost one where it stands. `Parser.feed` takes the next token: it either
moves on or refuses the token, and it refuses exactly when no program goes on like this.
So the first token refused is the earliest one that can be blamed, and running out of
tokens inside a construct is an error at the end.

An operand is held back until the token after it tells what it belongs to: a binary
operator closes the operators before it that bind at least as tightly, and a semicolon,
a closing parenthesis or a comma closes every operator and assignment of the expression.

## Numbers of nodes

Variables, assignments and calls are numbered in the order in which they are finished,
and the token after a construct is what finishes it. A variable or a call is finished by
a token that can follow an operand somewhere in a program, an assignment by one that can
end an expression somewhere, a superclass by its `=`. Such a token may still be refused
where it stands: `a )` uses a number for `a` and then fails, while `a b` and `a` at the
end of the text use none. A refused text keeps the numbers that it used, so they are
part of the answer in both cases.
-/

namespace Treewalk

/-- The state of the parser between two tokens. -/
structure Parser where
  layers : List Layer
  focus : Focus
  /-- The number that the next node gets. -/
  nextId : NodeId

namespace Parser

/-- The answer to a token: the next state, or the numbers used up when it is refused. -/
abbrev Step := Except NodeId Parser

/-- The state before the first token. -/
def start (firstId : NodeId) : Parser :=
  ⟨[.program []], .declaration, firstId⟩

/-- No program goes on with this token. -/
def refuse (p : Parser) : Step :=
  .error p.nextId

/-- The token is read and the parser stands elsewhere. -/
def move (p : Parser) (layers : List Layer) (focus : Focus) : Step :=
  .ok ⟨layers, focus, p.nextId⟩

/-! ## Finishing statements -/

/-- A statement is finished and joins the body around it. -/
def finishStmt (p : Parser) (layers : List Layer) (s : Stmt) : Step :=
  match layers with
  | layer :: rest =>
    match layer.addStmt s with
    | some layer => p.move (layer :: rest) .declaration
    | none => p.refuse
  | [] => p.refuse

/-- An `if` is finished, and with it every `if` whose second branch it is. -/
def finishBranch (p : Parser) : List Layer → Stmt → Step
  | .elseIf start cond onTrue :: layers, s =>
    p.finishBranch layers (.branch ⟨start, s.span.stop⟩ cond onTrue (some s))
  | layers, s => p.finishStmt layers s

/-- A function is finished: a method of the class around it, or a statement. -/
def finishFunction (p : Parser) (layers : List Layer) (decl : FunctionDecl) : Step :=
  match layers with
  | .classBody start name superclass methods :: rest =>
    p.move (.classBody start name superclass (decl :: methods) :: rest) .member
  | layers => p.finishStmt layers (.funcDecl decl.span decl)

/-- A closing brace ends the body that is being read. -/
def closeBody (p : Parser) (stop : Nat) : Step :=
  match p.layers with
  | .block start done :: layers =>
    p.finishStmt layers (.block ⟨start, stop⟩ done.reverse)
  | .functionBody start name params done :: layers =>
    p.finishFunction layers (.mk name params done.reverse ⟨start, stop⟩)
  | .thenBody start cond brace done :: layers =>
    p.move layers (.branchNext start cond (.block ⟨brace, stop⟩ done.reverse))
  | .elseBody start cond onTrue brace done :: layers =>
    p.finishBranch layers
      (.branch ⟨start, stop⟩ cond onTrue (some (.block ⟨brace, stop⟩ done.reverse)))
  | .loopBody start cond brace done :: layers =>
    p.finishStmt layers (.loop ⟨start, stop⟩ cond (.block ⟨brace, stop⟩ done.reverse))
  | .classBody start name superclass methods :: layers =>
    p.finishStmt layers
      (.classDecl ⟨start, stop⟩ (.mk name superclass methods.reverse ⟨start, stop⟩))
  | _ => p.refuse

/-! ## Expressions -/

/-- A closing parenthesis ends the arguments of a call. -/
def closeCall (p : Parser) (layers : List Layer) (callee : Expr) (args : List Expr)
    (stop : Nat) :
    Step :=
  p.move layers (.called ⟨callee.span.start, stop⟩ callee args)

/-- Whether the operand belongs to an operator, so that it is no target of an
assignment. -/
def inOperator (p : Parser) : Bool :=
  p.layers.head?.any Layer.isOperator

/-- The next token where an operand is awaited. -/
def feedOperand (p : Parser) (t : Token) (span : Span) : Step :=
  match t with
  | .number n => p.move p.layers (.complete (.literal span (.number n)))
  | .string s => p.move p.layers (.complete (.literal span (.string s)))
  | .word .true => p.move p.layers (.complete (.literal span (.bool true)))
  | .word .false => p.move p.layers (.complete (.literal span (.bool false)))
  | .word .nil => p.move p.layers (.complete (.literal span .nil))
  | .word .this => p.move p.layers (.complete (.this span))
  | .word .super => p.move p.layers (.superDot span.start)
  | .ident name => p.move p.layers (.ident span name)
  | .sign .lparen => p.move (.grouping span.start :: p.layers) .operand
  | .sign .minus => p.move (.unary span.start .neg :: p.layers) .operand
  | .sign .bang => p.move (.unary span.start .not :: p.layers) .operand
  | .sign .rparen =>
    match p.layers with
    | .printOperand start newline :: layers =>
      p.move layers (.printEnd start newline none)
    | .arguments callee done :: layers =>
      p.closeCall layers callee done.reverse span.stop
    | _ => p.refuse
  | .sign .semi =>
    match p.layers with
    | .retOperand start :: layers => p.finishStmt layers (.ret ⟨start, span.stop⟩ none)
    | _ => p.refuse
  | _ => p.refuse

/-- A token that ends an expression, once all operators and assignments of it are
closed. -/
def feedEnd (p : Parser) (e : Expr) (t : Token) (span : Span) : Step :=
  match t, p.layers with
  | .sign .semi, .varInit start name :: layers =>
    p.finishStmt layers (.var ⟨start, span.stop⟩ name (some e))
  | .sign .semi, .retOperand start :: layers =>
    p.finishStmt layers (.ret ⟨start, span.stop⟩ (some e))
  | .sign .semi, .statement start :: layers =>
    p.finishStmt layers (.expression ⟨start, span.stop⟩ e)
  | .sign .rparen, .printOperand start newline :: layers =>
    p.move layers (.printEnd start newline (some e))
  | .sign .rparen, .branchCond start :: layers => p.move layers (.branchBrace start e)
  | .sign .rparen, .loopCond start :: layers => p.move layers (.loopBrace start e)
  | .sign .rparen, .grouping start :: layers =>
    p.move layers (.complete (.grouping ⟨start, span.stop⟩ e))
  | .sign .rparen, .arguments callee done :: layers =>
    p.closeCall layers callee (done.reverse ++ [e]) span.stop
  | .sign .comma, .arguments callee done :: layers =>
    p.move (.arguments callee (e :: done) :: layers) .operand
  | _, _ => p.refuse

/-- The next token after an operand. -/
def feedComplete (p : Parser) (e : Expr) (t : Token) (span : Span) : Step :=
  match t with
  | .sign .lparen => p.move (.arguments e [] :: p.layers) .operand
  | .sign .dot => p.move p.layers (.propertyName e)
  | .sign .eq =>
    match e with
    | .get _ object name =>
      if p.inOperator then p.refuse else p.move (.set object name :: p.layers) .operand
    | _ => p.refuse
  | t =>
    match Operator.ofToken? t with
    | some op =>
      let (layers, left) := closeOperators op.level p.layers e
      p.move (op.layer left :: layers) .operand
    | none =>
      if t.endsExpression then
        let (layers, e, next) := closeExpression e.span.stop p.layers e p.nextId
        feedEnd ⟨layers, p.focus, next⟩ e t span
      else p.refuse

/-- The next token after an operand `e` that has the next number: it takes the number if
the token can follow an operand. -/
def feedNumbered (p : Parser) (e : Expr) (t : Token) (span : Span) : Step :=
  if t.followsOperand then feedComplete ⟨p.layers, .complete e, p.nextId + 1⟩ e t span
  else p.refuse

/-! ## Statements -/

/-- The next token where a declaration or statement is awaited. -/
def feedDeclaration (p : Parser) (t : Token) (span : Span) : Step :=
  match t with
  | .word .func => p.move p.layers (.funcName span.start)
  | .word .cls => p.move p.layers (.className span.start)
  | .word .var => p.move p.layers (.varName span.start)
  | .word .print => p.move p.layers (.printOpen span.start false)
  | .word .printLine => p.move p.layers (.printOpen span.start true)
  | .word .ret => p.move (.retOperand span.start :: p.layers) .operand
  | .word .brk => p.move p.layers (.brkEnd span.start)
  | .word .ifs => p.move p.layers (.branchOpen span.start)
  | .word .whiles => p.move p.layers (.loopOpen span.start)
  | .sign .lbrace => p.move (.block span.start [] :: p.layers) .declaration
  | .sign .rbrace => p.closeBody span.stop
  | t => feedOperand ⟨.statement span.start :: p.layers, .operand, p.nextId⟩ t span

/-- An `if` without a second branch is finished by the token after it. -/
def endBranch (p : Parser) (start : Nat) (cond : Expr) (onTrue : Stmt) : Step :=
  p.finishBranch p.layers (.branch ⟨start, onTrue.span.stop⟩ cond onTrue none)

/-- The next token. -/
def feed (p : Parser) (token : Located Token) : Step :=
  let t := token.node
  let span := token.span
  match p.focus, t with
  | .declaration, t => p.feedDeclaration t span
  | .member, .word .func => p.move p.layers (.funcName span.start)
  | .member, .sign .rbrace => p.closeBody span.stop
  | .operand, t => p.feedOperand t span
  | .ident nameSpan name, .sign .eq =>
    if p.inOperator then p.refuse
    else p.move (.assign nameSpan.start name :: p.layers) .operand
  | .ident nameSpan name, t => p.feedNumbered (.var nameSpan p.nextId name) t span
  | .called callSpan callee args, t =>
    p.feedNumbered (.call callSpan p.nextId callee args) t span
  | .complete e, t => p.feedComplete e t span
  | .propertyName object, .ident name =>
    p.move p.layers
      (.complete (.get ⟨object.span.start, span.stop⟩ object ⟨name, span⟩))
  | .superDot start, .sign .dot => p.move p.layers (.superName start)
  | .superName start, .ident name =>
    p.move p.layers (.complete (.super ⟨start, span.stop⟩ ⟨name, span⟩))
  | .funcName start, .ident name => p.move p.layers (.funcOpen start ⟨name, span⟩)
  | .funcOpen start name, .sign .lparen => p.move p.layers (.param start name [])
  | .param start name params, .ident param =>
    p.move p.layers (.paramNext start name (⟨param, span⟩ :: params))
  | .param start name params, .sign .rparen =>
    p.move p.layers (.funcEq start name params.reverse)
  | .paramNext start name params, .sign .comma =>
    p.move p.layers (.param start name params)
  | .paramNext start name params, .sign .rparen =>
    p.move p.layers (.funcEq start name params.reverse)
  | .funcEq start name params, .sign .eq =>
    p.move p.layers (.funcBrace start name params)
  | .funcBrace start name params, .sign .lbrace =>
    p.move (.functionBody start name params [] :: p.layers) .declaration
  | .className start, .ident name => p.move p.layers (.classNext start ⟨name, span⟩)
  | .classNext start name, .sign .colon => p.move p.layers (.superclassName start name)
  | .classNext start name, .sign .eq => p.move p.layers (.classBrace start name none)
  | .superclassName start name, .ident superclass =>
    p.move p.layers (.classEq start name ⟨superclass, span⟩)
  | .classEq start name superclass, .sign .eq =>
    let e : Expr := .var superclass.span p.nextId superclass.node
    .ok ⟨p.layers, .classBrace start name (some e), p.nextId + 1⟩
  | .classBrace start name superclass, .sign .lbrace =>
    p.move (.classBody start name superclass [] :: p.layers) .member
  | .varName start, .ident name => p.move p.layers (.varNext start ⟨name, span⟩)
  | .varNext start name, .sign .eq => p.move (.varInit start name :: p.layers) .operand
  | .varNext start name, .sign .semi =>
    p.finishStmt p.layers (.var ⟨start, span.stop⟩ name none)
  | .printOpen start newline, .sign .lparen =>
    p.move (.printOperand start newline :: p.layers) .operand
  | .printEnd start newline operand, .sign .semi =>
    p.finishStmt p.layers (.print ⟨start, span.stop⟩ newline operand)
  | .brkEnd start, .sign .semi => p.finishStmt p.layers (.brk ⟨start, span.stop⟩)
  | .branchOpen start, .sign .lparen => p.move (.branchCond start :: p.layers) .operand
  | .branchBrace start cond, .sign .lbrace =>
    p.move (.thenBody start cond span.start [] :: p.layers) .declaration
  | .branchNext start cond onTrue, .word .els =>
    p.move p.layers (.elseNext start cond onTrue)
  | .branchNext start cond onTrue, t =>
    match p.endBranch start cond onTrue with
    | .ok p => p.feedDeclaration t span
    | .error next => .error next
  | .elseNext start cond onTrue, .sign .lbrace =>
    p.move (.elseBody start cond onTrue span.start [] :: p.layers) .declaration
  | .elseNext start cond onTrue, .word .ifs =>
    p.move (.elseIf start cond onTrue :: p.layers) (.branchOpen span.start)
  | .loopOpen start, .sign .lparen => p.move (.loopCond start :: p.layers) .operand
  | .loopBrace start cond, .sign .lbrace =>
    p.move (.loopBody start cond span.start [] :: p.layers) .declaration
  | _, _ => p.refuse

/-! ## Whole texts -/

/-- The program, if the tokens may end here. -/
def finish (p : Parser) : Option Program :=
  let p? : Option Parser :=
    match p.focus with
    | .branchNext start cond onTrue => (p.endBranch start cond onTrue).toOption
    | _ => some p
  match p? with
  | some ⟨[.program done], .declaration, _⟩ => some ⟨done.reverse⟩
  | _ => none

end Parser

/-- Why tokens are no program. -/
inductive ParseError where
  /-- The first token with which no program goes on. -/
  | unexpectedToken (token : Located Token)
  /-- The tokens end, the last one at this offset, before the program does. -/
  | unexpectedEnd (stop : Nat)

namespace ParseError

/-- The place of a parse error; the end of the text is shown as one byte after it. -/
def span : ParseError → Span
  | unexpectedToken token => token.span
  | unexpectedEnd stop => ⟨stop, stop + 1⟩

/-- The wording of a parse error. -/
def message : ParseError → String
  | unexpectedToken token =>
    "Unrecognized token `" ++ token.node.text ++ "` found at " ++
      toString token.span.start ++ ":" ++ toString token.span.stop
  | unexpectedEnd stop => "Unrecognized EOF found at " ++ toString stop

end ParseError

namespace Parser

/-- The program that the remaining tokens complete, and the next free number in either
case. -/
def parseFrom (p : Parser) (stop : Nat) :
    List (Located Token) → Except ParseError Program × NodeId
  | [] =>
    match p.finish with
    | some program => (.ok program, p.nextId)
    | none => (.error (.unexpectedEnd stop), p.nextId)
  | token :: tokens =>
    match p.feed token with
    | .ok next => next.parseFrom token.span.stop tokens
    | .error nextId => (.error (.unexpectedToken token), nextId)

end Parser

/-- The program that the tokens spell, its nodes numbered from `firstId` on. -/
def parse (firstId : NodeId) (tokens : List (Located Token)) :
    Except ParseError Program × NodeId :=
  (Parser.start firstId).parseFrom 0 tokens

end Treewalk
