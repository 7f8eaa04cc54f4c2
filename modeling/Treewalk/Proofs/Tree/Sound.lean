import Treewalk.Proofs.Tree.Grammar
import Treewalk.Tree.Parser

/-!
# Everything read is a program

The state of the parser stands for the tokens read so far. A stack of unfinished
constructs holds the finished parts of every construct, and each part is a phrase of the
grammar (`Stands`); the focus holds what was read since (`At`). Feeding a token keeps
this (`Viable.feed`): either it becomes part of the focus, or it finishes constructs,
whose parts then make up a phrase by one of the rules. When the tokens end, all that is
left on the stack is one list of declarations.

A stack awaits something on its top, its `Hole`. An operator awaits an operand of a
tighter rank, which is why closing operators down to a level leaves an expression of
that level.

## Main results

* `Fills.closeOperators`, `Fills.feedEnd` — closed operators are expressions of the
  grammar.
* `Viable.feed` — a token keeps what the state stands for.
* `derives_of_parse` — an accepted list of tokens is a program, with the tree and the
  numbers returned.
-/

namespace Treewalk

open List

open Grammar

/-- The construct that the tokens of a focus belong to. -/
inductive Construct where
  | list | expression | function | cls | branch | statement

/-- The construct of a focus. -/
def Focus.construct : Focus → Construct
  | .declaration | .member => .list
  | .operand | .ident .. | .called .. | .complete _ | .propertyName _ | .superDot _
  | .superName _ => .expression
  | .funcName _ | .funcOpen .. | .param .. | .paramNext .. | .funcEq .. | .funcBrace
      .. => .function
  | .className _ | .classNext .. | .superclassName .. | .classEq .. | .classBrace .. =>
    .cls
  | .branchOpen _ | .branchBrace .. | .branchNext .. | .elseNext .. => .branch
  | _ => .statement

namespace Parser

/-! ## What a state stands for -/

/-- What a stack of unfinished constructs awaits. -/
inductive Hole where
  | declaration
  | method
  /-- A conditional as the second branch of another. -/
  | branch
  /-- An expression, which starts at `start` if that is given. -/
  | phrase (rank : Rank) (start : Option Nat)

/-- A function may stand here. -/
inductive Hole.TakesFunction : Hole → Prop
  | declaration : TakesFunction .declaration
  | method : TakesFunction .method

/-- A conditional may stand here. -/
inductive Hole.TakesBranch : Hole → Prop
  | declaration : TakesBranch .declaration
  | branch : TakesBranch .branch

/-- The tokens start where the expression has to start. -/
def Begins (start : Option Nat) (ts : Tokens) : Prop :=
  ∀ s, start = some s → s = startOf ts

private theorem Begins.append {start : Option Nat} {ts : Tokens} (h : Begins start ts)
    (hne : ts ≠ []) (us : Tokens) : Begins start (ts ++ us) := by
  intro s hs
  rw [startOf_append us hne]
  exact h s hs

private theorem Begins.of_append {start : Option Nat} {ts us : Tokens}
    (h : Begins start (ts ++ us)) (hne : ts ≠ []) : Begins start ts := by
  intro s hs
  rw [← startOf_append us hne]
  exact h s hs

theorem Begins.cons {start : Option Nat} {t : Located Token} (h : Begins start [t])
    (us : Tokens) :
    Begins start (t :: us) :=
  h.append (cons_ne_nil _ _) us

private theorem Begins.none (ts : Tokens) : Begins none ts :=
  fun _ h => nomatch h

/-- The part of a conditional up to the end of its first branch. -/
inductive IfHead : Tokens → NodeId → Nat → Expr → Stmt → NodeId → Prop
  | mk {a b c d e ts us n m k cond body} : Phrase .assignment ts n cond m →
      Declarations us m body k →
      IfHead
        (⟨.word .ifs, a⟩ :: ⟨.sign .lparen, b⟩ ::
          (ts ++ ⟨.sign .rparen, c⟩ :: braced d us e)) n
        a.start cond (.block ⟨d.start, e.stop⟩ body) k

mutual

/-- The tokens `ts` are the finished parts of these constructs, read from `firstId` on;
`n` is the next number. -/
inductive Stands (firstId : NodeId) : Hole → List Layer → Tokens → NodeId → Prop
  | body {collect done layers ts us n m} : Opens firstId collect layers ts n →
      Declarations us n done.reverse m →
      Stands firstId .declaration (collect done :: layers) (ts ++ us) m
  | classBody {x a b c d superclass methods layers ts ss us n m k} :
      Stands firstId .declaration layers ts n → Superclass ss n superclass m →
      Methods us m methods.reverse k →
      Stands firstId .method (.classBody a.start ⟨x, b⟩ superclass methods :: layers)
        (ts ++ ⟨.word .cls, a⟩ :: ⟨.ident x, b⟩ ::
          (ss ++ ⟨.sign .eq, c⟩ :: ⟨.sign .lbrace, d⟩ :: us)) k
  | elseIf {hole start cond onTrue layers ts us n m a} :
      Stands firstId hole layers ts n → hole.TakesBranch →
      IfHead us n start cond onTrue m →
      Stands firstId .branch (.elseIf start cond onTrue :: layers)
      (ts ++ (us ++ [⟨.word .els, a⟩])) m
  | varInit {x a b c layers ts n} : Stands firstId .declaration layers ts n →
      Stands firstId (.phrase .assignment none) (.varInit a.start ⟨x, b⟩ :: layers)
        (ts ++ [⟨.word .var, a⟩, ⟨.ident x, b⟩, ⟨.sign .eq, c⟩]) n
  | printOperand {newline a b layers ts n} : Stands firstId .declaration layers ts n →
      Stands firstId (.phrase .assignment none)
        (.printOperand a.start newline :: layers)
        (ts ++ [⟨.word (printWord newline), a⟩, ⟨.sign .lparen, b⟩]) n
  | retOperand {a layers ts n} : Stands firstId .declaration layers ts n →
      Stands firstId (.phrase .assignment none) (.retOperand a.start :: layers)
        (ts ++ [⟨.word .ret, a⟩]) n
  | branchCond {hole a b layers ts n} : Stands firstId hole layers ts n →
      hole.TakesBranch →
      Stands firstId (.phrase .assignment none) (.branchCond a.start :: layers)
        (ts ++ [⟨.word .ifs, a⟩, ⟨.sign .lparen, b⟩]) n
  | loopCond {a b layers ts n} : Stands firstId .declaration layers ts n →
      Stands firstId (.phrase .assignment none) (.loopCond a.start :: layers)
        (ts ++ [⟨.word .whiles, a⟩, ⟨.sign .lparen, b⟩]) n
  | statement {start layers ts n} : Stands firstId .declaration layers ts n →
      Stands firstId (.phrase .assignment (some start))
        (.statement start :: layers) ts n
  | grouping {rank start a layers ts n} :
      Stands firstId (.phrase rank start) layers ts n →
      Begins start [⟨.sign .lparen, a⟩] →
      Stands firstId (.phrase .assignment none) (.grouping a.start :: layers)
        (ts ++ [⟨.sign .lparen, a⟩]) n
  | arguments {rank start callee done a layers ts us vs n m k} :
      Stands firstId (.phrase rank start) layers ts n → Phrase .call us n callee m →
      Begins start us → Commaed (Phrase .assignment) vs m done.reverse k →
      Stands firstId (.phrase .assignment none) (.arguments callee done :: layers)
        (ts ++ (us ++ ⟨.sign .lparen, a⟩ :: vs)) k
  | assign {start x a b layers ts n} :
      Stands firstId (.phrase .assignment start) layers ts n →
      Begins start [⟨.ident x, a⟩] →
      Stands firstId (.phrase .assignment none) (.assign a.start x :: layers)
        (ts ++ [⟨.ident x, a⟩, ⟨.sign .eq, b⟩]) n
  | set {start object x a b c layers ts us n m} :
      Stands firstId (.phrase .assignment start) layers ts n →
        Phrase .call us n object m →
      Begins start us →
      Stands firstId (.phrase .assignment none) (.set object ⟨x, b⟩ :: layers)
        (ts ++ (us ++ [⟨.sign .dot, a⟩, ⟨.ident x, b⟩, ⟨.sign .eq, c⟩])) m
  | join {layer rank tight start left op a layers ts us n m} :
      layer = Operator.layer left op → Stands firstId (.phrase rank start) layers ts n →
      rank.level ≤ (rankOf op).level → (rankOf op).tighter = some tight →
      Phrase (rankOf op) us n left m → Begins start us →
      Stands firstId (.phrase tight none) (layer :: layers)
      (ts ++ (us ++ [⟨op.token, a⟩])) m
  | unary {rank start op a layers ts n} :
      Stands firstId (.phrase rank start) layers ts n →
      Begins start [⟨.sign (UnaryOp.sign op), a⟩] →
      Stands firstId (.phrase .unary none) (.unary a.start op :: layers)
        (ts ++ [⟨.sign op.sign, a⟩]) n

/-- The tokens `ts` end with the start of a body. -/
inductive Opens (firstId : NodeId) : (List Stmt → Layer) → List Layer → Tokens →
  NodeId → Prop
  | program : Opens firstId .program [] [] firstId
  | block {a layers ts n} : Stands firstId .declaration layers ts n →
      Opens firstId (.block a.start) layers (ts ++ [⟨.sign .lbrace, a⟩]) n
  | functionBody {hole x a b c d e f params layers ts ps n m} :
      Stands firstId hole layers ts n → hole.TakesFunction → Comma Named ps n params m →
      Opens firstId (.functionBody a.start ⟨x, b⟩ params) layers
        (ts ++ ⟨.word .func, a⟩ :: ⟨.ident x, b⟩ :: ⟨.sign .lparen, c⟩ ::
          (ps ++ [⟨.sign .rparen, d⟩, ⟨.sign .eq, e⟩, ⟨.sign .lbrace, f⟩])) m
  | thenBody {hole a b c d cond layers ts us n m} : Stands firstId hole layers ts n →
      hole.TakesBranch → Phrase .assignment us n cond m →
      Opens firstId (.thenBody a.start cond d.start) layers
        (ts ++ ⟨.word .ifs, a⟩ :: ⟨.sign .lparen, b⟩ ::
          (us ++ [⟨.sign .rparen, c⟩, ⟨.sign .lbrace, d⟩])) m
  | elseBody {hole start cond onTrue a b layers ts us n m} :
      Stands firstId hole layers ts n → hole.TakesBranch →
      IfHead us n start cond onTrue m →
      Opens firstId (.elseBody start cond onTrue b.start) layers
        (ts ++ (us ++ [⟨.word .els, a⟩, ⟨.sign .lbrace, b⟩])) m
  | loopBody {a b c d cond layers ts us n m} : Stands firstId .declaration layers ts n →
      Phrase .assignment us n cond m →
      Opens firstId (.loopBody a.start cond d.start) layers
        (ts ++ ⟨.word .whiles, a⟩ :: ⟨.sign .lparen, b⟩ ::
          (us ++ [⟨.sign .rparen, c⟩, ⟨.sign .lbrace, d⟩])) m

end

/-- The tokens `ts` were read since the constructs on the stack, which await `hole`. -/
inductive At : Focus → Hole → Tokens → NodeId → NodeId → Prop
  | declaration {n} : At .declaration .declaration [] n n
  | member {n} : At .member .method [] n n
  | operand {rank n} : At .operand (.phrase rank none) [] n n
  | ident {x a rank start n} : Begins start [⟨.ident x, a⟩] →
      At (.ident a x) (.phrase rank start) [⟨.ident x, a⟩] n n
  | called {rank start callee args a b us vs n m k} : Phrase .call us n callee m →
      Comma (Phrase .assignment) vs m args k → Begins start us →
      At (.called ⟨startOf us, b.stop⟩ callee args) (.phrase rank start)
        (us ++ ⟨.sign .lparen, a⟩ :: (vs ++ [⟨.sign .rparen, b⟩])) n k
  | complete {rank start e us n m} : Phrase .call us n e m → Begins start us →
      At (.complete e) (.phrase rank start) us n m
  | propertyName {rank start object us a n m} : Phrase .call us n object m →
      Begins start us →
      At (.propertyName object) (.phrase rank start) (us ++ [⟨.sign .dot, a⟩]) n m
  | superDot {rank start a n} : Begins start [⟨.word .super, a⟩] →
      At (.superDot a.start) (.phrase rank start) [⟨.word .super, a⟩] n n
  | superName {rank start a b n} : Begins start [⟨.word .super, a⟩] →
      At (.superName a.start) (.phrase rank start)
        [⟨.word .super, a⟩, ⟨.sign .dot, b⟩] n n
  | funcName {hole a n} : Hole.TakesFunction hole →
      At (.funcName a.start) hole [⟨.word .func, a⟩] n n
  | funcOpen {hole x a b n} : Hole.TakesFunction hole →
      At (.funcOpen a.start ⟨x, b⟩) hole [⟨.word .func, a⟩, ⟨.ident x, b⟩] n n
  | param {hole x a b c params ps n m} : Hole.TakesFunction hole →
      Commaed Named ps n params.reverse m →
      At (.param a.start ⟨x, b⟩ params) hole
        (⟨.word .func, a⟩ :: ⟨.ident x, b⟩ :: ⟨.sign .lparen, c⟩ :: ps) n m
  | paramNext {hole x y a b c d params ps n m} : Hole.TakesFunction hole →
      Commaed Named ps n params.reverse m →
      At (.paramNext a.start ⟨x, b⟩ (⟨y, d⟩ :: params)) hole
        (⟨.word .func, a⟩ :: ⟨.ident x, b⟩ :: ⟨.sign .lparen, c⟩ ::
          (ps ++ [⟨.ident y, d⟩])) n m
  | funcEq {hole x a b c d params ps n m} : Hole.TakesFunction hole →
      Comma Named ps n params m → At (.funcEq a.start ⟨x, b⟩ params) hole
        (⟨.word .func, a⟩ :: ⟨.ident x, b⟩ :: ⟨.sign .lparen, c⟩ ::
          (ps ++ [⟨.sign .rparen, d⟩])) n m
  | funcBrace {hole x a b c d e params ps n m} : Hole.TakesFunction hole →
      Comma Named ps n params m →
      At (.funcBrace a.start ⟨x, b⟩ params) hole
        (⟨.word .func, a⟩ :: ⟨.ident x, b⟩ :: ⟨.sign .lparen, c⟩ ::
          (ps ++ [⟨.sign .rparen, d⟩, ⟨.sign .eq, e⟩])) n m
  | className {a n} : At (.className a.start) .declaration [⟨.word .cls, a⟩] n n
  | classNext {x a b n} :
      At (.classNext a.start ⟨x, b⟩) .declaration [⟨.word .cls, a⟩, ⟨.ident x, b⟩] n n
  | superclassName {x a b c n} :
      At (.superclassName a.start ⟨x, b⟩) .declaration
        [⟨.word .cls, a⟩, ⟨.ident x, b⟩, ⟨.sign .colon, c⟩] n n
  | classEq {x y a b c d n} :
      At (.classEq a.start ⟨x, b⟩ ⟨y, d⟩) .declaration
        [⟨.word .cls, a⟩, ⟨.ident x, b⟩, ⟨.sign .colon, c⟩, ⟨.ident y, d⟩] n n
  | classBrace {x a b c superclass ss n m} : Superclass ss n superclass m →
      At (.classBrace a.start ⟨x, b⟩ superclass) .declaration
        (⟨.word .cls, a⟩ :: ⟨.ident x, b⟩ :: (ss ++ [⟨.sign .eq, c⟩])) n m
  | varName {a n} : At (.varName a.start) .declaration [⟨.word .var, a⟩] n n
  | varNext {x a b n} :
      At (.varNext a.start ⟨x, b⟩) .declaration [⟨.word .var, a⟩, ⟨.ident x, b⟩] n n
  | printOpen {newline a n} :
      At (.printOpen a.start newline) .declaration [⟨.word (printWord newline), a⟩] n n
  | printEnd {newline operand a b c us n m} :
      Optional (Phrase .assignment) us n operand m →
      At (.printEnd a.start newline operand) .declaration
        (⟨.word (printWord newline), a⟩ :: ⟨.sign .lparen, b⟩ ::
          (us ++ [⟨.sign .rparen, c⟩])) n m
  | brkEnd {a n} : At (.brkEnd a.start) .declaration [⟨.word .brk, a⟩] n n
  | branchOpen {hole a n} : Hole.TakesBranch hole →
      At (.branchOpen a.start) hole [⟨.word .ifs, a⟩] n n
  | branchBrace {hole cond a b c us n m} : Hole.TakesBranch hole →
      Phrase .assignment us n cond m → At (.branchBrace a.start cond) hole
        (⟨.word .ifs, a⟩ :: ⟨.sign .lparen, b⟩ :: (us ++ [⟨.sign .rparen, c⟩])) n m
  | branchNext {hole start cond onTrue us n m} : Hole.TakesBranch hole →
      IfHead us n start cond onTrue m → At (.branchNext start cond onTrue) hole us n m
  | elseNext {hole start cond onTrue a us n m} : Hole.TakesBranch hole →
      IfHead us n start cond onTrue m →
      At (.elseNext start cond onTrue) hole (us ++ [⟨.word .els, a⟩]) n m
  | loopOpen {a n} : At (.loopOpen a.start) .declaration [⟨.word .whiles, a⟩] n n
  | loopBrace {cond a b c us n m} : Phrase .assignment us n cond m →
      At (.loopBrace a.start cond) .declaration
        (⟨.word .whiles, a⟩ :: ⟨.sign .lparen, b⟩ :: (us ++ [⟨.sign .rparen, c⟩])) n m

/-- The state stands for these tokens. -/
inductive Viable (firstId : NodeId) : Parser → Tokens → Prop
  | mk {layers focus hole ts us vs n m} : Stands firstId hole layers us n →
      At focus hole vs n m → ts = us ++ vs → Viable firstId ⟨layers, focus, m⟩ ts

/-- The state awaits a declaration after these tokens. -/
inductive Settles (firstId : NodeId) : Parser → Tokens → NodeId → Prop
  | mk {layers ts n} : Stands firstId .declaration layers ts n →
      Settles firstId ⟨layers, .declaration, n⟩ ts n

/-- An expression on top of these constructs, where its rank is awaited. -/
inductive Fills (firstId : NodeId) : List Layer → Rank → Expr → Tokens → NodeId → Prop
  | mk {layers hole rank start e us vs n m} :
      Stands firstId (.phrase hole start) layers us n → Phrase rank vs n e m →
      hole.level ≤ rank.level → Begins start vs →
      Fills firstId layers rank e (us ++ vs) m

variable {firstId : NodeId} {layers : List Layer} {ts us : Tokens} {n m k : NodeId}
  {p q : Parser} {cond e : Expr} {onTrue : Stmt} {a : Span} {focus : Focus}
  {rank : Rank} {op : Operator} {t : Token} {program : Program}

/-! ## Finished statements -/

private theorem Opens.addStmt {collect : List Stmt → Layer}
    (h : Opens firstId collect layers ts n) (done : List Stmt) (s : Stmt) :
    (collect done).addStmt s = some (collect (s :: done)) := by
  cases h <;> rfl

private theorem Settles.viable (h : Settles firstId p ts n) : Viable firstId p ts := by
  cases h with
  | mk h => exact .mk h .declaration (append_nil _).symm

/-- A finished statement joins the body around it. -/
theorem Stands.finishStmt {s : Stmt} (h : Stands firstId .declaration layers ts n)
    (hs : Declaration us n s p.nextId) (hq : p.finishStmt layers s = .ok q) :
    Settles firstId q (ts ++ us) p.nextId := by
  cases h with
  | @body collect done _ _ _ _ _ hopens hbody =>
    simp only [Parser.finishStmt, hopens.addStmt done s] at hq
    cases hq
    have hmore := hbody.more hs
    rw [← reverse_cons] at hmore
    rw [append_assoc]
    exact .mk (.body hopens hmore)

private theorem Stands.finishFunction {hole : Hole} {decl : FunctionDecl}
    (h : Stands firstId hole layers ts n) (hhole : hole.TakesFunction)
    (hdecl : FunctionDeclaration us n decl p.nextId)
    (hq : p.finishFunction layers decl = .ok q) : Viable firstId q (ts ++ us) := by
  cases hhole with
  | declaration =>
    have hstmt : p.finishStmt layers (.funcDecl decl.span decl) = .ok q := by
      cases h with
      | body hopens _ => cases hopens <;> exact hq
    rw [hdecl.span_eq] at hstmt
    exact (h.finishStmt (.function hdecl) hstmt).viable
  | method =>
    cases h with
    | @classBody _ _ _ c d _ _ _ _ _ _ _ _ _ h hss hms =>
      cases hq
      have hmore := hms.more hdecl
      rw [← reverse_cons] at hmore
      exact .mk (.classBody (c := c) (d := d) h hss hmore) .member (by simp)

theorem IfHead.conditional {start : Nat} (h : IfHead ts n start cond onTrue m) :
    Conditional ts n (.branch ⟨start, onTrue.span.stop⟩ cond onTrue none) m := by
  cases h with
  | mk hcond hbody => exact .plain hcond hbody

theorem IfHead.chained {start : Nat} {s : Stmt} (h : IfHead ts n start cond onTrue m)
    (hs : Conditional us m s k) :
    Conditional (ts ++ ⟨.word .els, a⟩ :: us) n
      (.branch ⟨start, s.span.stop⟩ cond onTrue (some s)) k := by
  cases h with
  | mk hcond hbody =>
    have hstop : s.span.stop = stopOf us := by rw [hs.span_eq]; rfl
    rw [hstop]
    simpa only [cons_append, append_assoc] using Conditional.chained hcond hbody hs

theorem IfHead.otherwise {start : Nat} {other : List Stmt} {b c : Span}
    (h : IfHead ts n start cond onTrue m) (hother : Declarations us m other k) :
    Conditional (ts ++ ⟨.word .els, a⟩ :: braced b us c) n
      (.branch ⟨start, c.stop⟩ cond onTrue (some (.block ⟨b.start, c.stop⟩ other)))
        k := by
  cases h with
  | mk hcond hbody =>
    simpa only [cons_append, append_assoc] using
      Conditional.otherwise hcond hbody hother

/-- A finished conditional joins the body around it, with every conditional whose second
branch it is. -/
theorem Stands.finishBranch {hole : Hole} {s : Stmt}
    (h : Stands firstId hole layers ts n) (hhole : hole.TakesBranch)
    (hs : Conditional us n s p.nextId) (hq : p.finishBranch layers s = .ok q) :
    Settles firstId q (ts ++ us) p.nextId := by
  induction layers generalizing hole ts us n s with
  | nil => cases h
  | cons layer layers ih =>
    cases hhole with
    | declaration =>
      have hstmt : p.finishStmt (layer :: layers) s = .ok q := by
        cases h with
        | body hopens _ => cases hopens <;> exact hq
      exact h.finishStmt (.statement (.conditional hs)) hstmt
    | branch =>
      cases h with
      | @elseIf _ _ _ _ _ _ _ _ _ a h hhole hhead =>
        have hall := ih h hhole (hhead.chained (a := a) hs) hq
        simpa only [append_assoc, singleton_append] using hall

private theorem Stands.closeBody {b : Span}
    (h : Stands firstId .declaration layers ts n)
    (hq : Parser.closeBody ⟨layers, focus, n⟩ b.stop = .ok q) :
    Viable firstId q (ts ++ [⟨.sign .rbrace, b⟩]) := by
  cases h with
  | body hopens hbody =>
    cases hopens with
    | program => cases hq
    | block h =>
      have hall := h.finishStmt (.statement (.block hbody)) hq
      simpa [braced] using hall.viable
    | @functionBody _ _ _ _ c d e f _ _ _ _ _ _ h hhole hps =>
      have hall :=
        h.finishFunction hhole (.mk (c := c) (d := d) (e := e) (f := f) hps hbody) hq
      simpa [braced] using hall
    | @thenBody _ _ b' c _ _ _ _ _ _ _ h hhole hcond =>
      cases hq
      exact .mk h (.branchNext hhole (.mk (b := b') (c := c) (e := b) hcond hbody))
        (by simp [braced])
    | @elseBody _ _ _ _ a b _ _ _ _ _ h hhole hhead =>
      have hall := h.finishBranch hhole (hhead.otherwise (a := a) (b := b) hbody) hq
      simpa [braced] using hall.viable
    | @loopBody _ b c _ _ _ _ _ _ _ h hcond =>
      have hall := h.finishStmt (.statement (.loop (b := b) (c := c) hcond hbody)) hq
      simpa [braced] using hall.viable

private theorem Stands.closeClass {b : Span} (h : Stands firstId .method layers ts n)
    (hq : Parser.closeBody ⟨layers, focus, n⟩ b.stop = .ok q) :
    Viable firstId q (ts ++ [⟨.sign .rbrace, b⟩]) := by
  cases h with
  | @classBody _ _ _ c d _ _ _ _ _ _ _ _ _ h hss hms =>
    have hall := h.finishStmt (.cls (c := c) (d := d) hss hms) hq
    simpa [braced] using hall.viable

/-! ## Closing operators -/

theorem Stands.level_le {start : Option Nat}
    (h : Stands firstId (.phrase rank start) layers ts n) :
    rank.level ≤ Rank.unary.level := by
  cases h with
  | @join _ _ _ _ _ op _ _ _ _ _ _ _ _ _ ht =>
    rw [Rank.level_of_tighter ht]
    exact level_rankOf_lt op
  | _ => decide

theorem Fills.unary {layers : List Layer} {rank : Rank} {e : Expr} {ts : Tokens}
    {m : NodeId} {start : Nat} {op : UnaryOp}
    (h : Fills firstId (.unary start op :: layers) rank e ts m) :
    Fills firstId layers .unary (.unary ⟨start, e.span.stop⟩ op e) ts m := by
  cases h with
  | mk hstands hphrase hle hbegins =>
    cases hstands with
    | unary hstands hop =>
      rw [hphrase.span_eq hle, append_assoc]
      exact .mk hstands (.unary (hphrase.loosen hle)) hstands.level_le (hop.cons _)
    | @join _ _ _ _ _ op' _ _ _ _ _ _ hlayer => cases op' <;> cases hlayer

private theorem Stands.joined {tight hole : Rank} {start : Option Nat}
    {left right : Expr} {vs : Tokens}
    (hstands : Stands firstId (.phrase hole start) layers ts n)
    (hhole : hole.level ≤ (rankOf op).level) (ht : (rankOf op).tighter = some tight)
    (hleft : Phrase (rankOf op) us n left k) (hbegins : Begins start us)
    (hright : Phrase rank vs k right m) (hle : tight.level ≤ rank.level) :
    Fills firstId layers (rankOf op) (op.join left right)
      (ts ++ (us ++ [⟨op.token, a⟩]) ++ vs) m := by
  have hjoin := Phrase.join (a := a) ht hleft (hright.loosen hle)
  rw [append_assoc, append_assoc]
  exact .mk hstands hjoin hhole (hbegins.append hleft.ne_nil _)

/-- Closing operators down to an operator's level leaves an operand for it. -/
theorem Fills.closeOperators (h : Fills firstId layers rank e ts m) (op : Operator)
    (hle : (rankOf op).level ≤ rank.level) :
    Fills firstId (closeOperators op.level layers e).1 (rankOf op)
      (closeOperators op.level layers e).2 ts m := by
  induction layers generalizing rank e ts with
  | nil => cases h with | mk hstands => cases hstands
  | cons layer layers ih =>
    cases h with
    | mk hstands hphrase hhole hbegins =>
      have hlevel := level_rankOf op
      have hs := hstands
      cases hstands with
      | unary hstands hop =>
        have hlt := level_rankOf_lt op
        exact ih (Fills.mk hs hphrase hhole hbegins).unary (by omega)
      | @join _ _ _ _ left op' a _ _ _ _ _ hlayer hstands hhole' ht hleft hbegins' =>
        subst hlayer
        have hlevel' := level_rankOf op'
        by_cases hop : op.level ≤ op'.level
        · rw [closeOperators_layer hop]
          exact ih (hstands.joined hhole' ht hleft hbegins' hphrase hhole) (by omega)
        · rw [closeOperators_layer_of_lt (Nat.lt_of_not_le hop)]
          have htight := Rank.level_of_tighter ht
          exact .mk hs (hphrase.loosen hle) (by omega) hbegins
      | _ => exact .mk hs (hphrase.loosen hle) (Nat.zero_le _) hbegins

/-- An operator after its left operand awaits the right one. -/
theorem Fills.viable (h : Fills firstId layers (rankOf op) e ts m) (a : Span) :
    Viable firstId ⟨op.layer e :: layers, .operand, m⟩ (ts ++ [⟨op.token, a⟩]) := by
  obtain ⟨tight, ht⟩ := Rank.tighter_of_level_lt (level_rankOf_lt op)
  cases h with
  | mk hstands hphrase hhole hbegins =>
    exact .mk (.join (a := a) rfl hstands hhole ht hphrase hbegins) .operand (by simp)

/-! ## Ending expressions -/

private theorem closeExpression_layer (op : Operator) (stop : Nat) (layers : List Layer)
    (left right : Expr) (n : NodeId) :
    closeExpression stop (op.layer left :: layers) right n =
      closeExpression stop layers (op.join left right) n := by
  cases op <;> rfl

private theorem token_of_endsExpression (h : t.endsExpression = true) :
    t = .sign .semi ∨ t = .sign .rparen ∨ t = .sign .comma := by
  cases t with
  | sign s => cases s <;> first | exact absurd h (by decide) | simp
  | _ => cases h

private theorem Fills.assign {layers : List Layer} {rank : Rank} {e : Expr}
    {ts : Tokens} {m : NodeId} {start : Nat} {x : String}
    (h : Fills firstId (.assign start x :: layers) rank e ts m) :
    Fills firstId layers .assignment (.assign ⟨start, stopOf ts⟩ m x e) ts (m + 1) := by
  cases h with
  | mk hstands hphrase hle hbegins =>
    rw [stopOf_append _ hphrase.ne_nil]
    cases hstands with
    | assign hstands hx =>
      rw [append_assoc]
      exact .mk hstands (.assign (hphrase.loosen (Nat.zero_le _))) (Nat.le_refl _)
        (hx.cons _)
    | @join _ _ _ _ _ op' _ _ _ _ _ _ hlayer => cases op' <;> cases hlayer

private theorem Fills.set {layers : List Layer} {rank : Rank} {e object : Expr}
    {ts : Tokens} {m : NodeId} {name : Name}
    (h : Fills firstId (.set object name :: layers) rank e ts m) :
    Fills firstId layers .assignment (.set ⟨object.span.start, stopOf ts⟩ object name e)
      ts m := by
  cases h with
  | mk hstands hphrase hle hbegins =>
    rw [stopOf_append _ hphrase.ne_nil]
    cases hstands with
    | set hstands hobject hbegins' =>
      rw [append_assoc, append_assoc, hobject.start_eq]
      exact .mk hstands (.set hobject (hphrase.loosen (Nat.zero_le _))) (Nat.le_refl _)
        (hbegins'.append hobject.ne_nil _)
    | @join _ _ _ _ _ op' _ _ _ _ _ _ hlayer => cases op' <;> cases hlayer

/-- A token that ends an expression finishes all of it and goes to the construct that it
stands in. -/
theorem Fills.feedEnd (h : Fills firstId layers rank e ts m)
    (ht : t.endsExpression = true)
    (hq : Parser.feedEnd ⟨(closeExpression (stopOf ts) layers e m).1, focus,
      (closeExpression (stopOf ts) layers e m).2.2⟩
      (closeExpression (stopOf ts) layers e m).2.1 t a = .ok q) :
    Viable firstId q (ts ++ [⟨t, a⟩]) := by
  induction layers generalizing rank e ts m with
  | nil => cases h with | mk hstands => cases hstands
  | cons layer layers ih =>
    cases h with
    | mk hstands hphrase hhole hbegins =>
      have hfills := Fills.mk hstands hphrase hhole hbegins
      have hexpr := hphrase.loosen (r := .assignment) (Nat.zero_le _)
      cases hstands with
      | unary => exact ih hfills.unary hq
      | @join _ _ _ _ left op' a _ _ _ _ _ hlayer hstands hhole' ht hleft hbegins' =>
        subst hlayer
        rw [closeExpression_layer] at hq
        exact ih (hstands.joined hhole' ht hleft hbegins' hphrase hhole) hq
      | assign => exact ih hfills.assign hq
      | set => exact ih hfills.set hq
      | @varInit _ _ _ c _ _ _ hstands =>
        rcases token_of_endsExpression ht with rfl | rfl | rfl
        · have hall := hstands.finishStmt (.statement (.varInit (c := c) hexpr)) hq
          simpa using hall.viable
        · cases hq
        · cases hq
      | retOperand hstands =>
        rcases token_of_endsExpression ht with rfl | rfl | rfl
        · have hall := hstands.finishStmt (.statement (.ret (.some hexpr))) hq
          simpa using hall.viable
        · cases hq
        · cases hq
      | statement hstands =>
        rcases token_of_endsExpression ht with rfl | rfl | rfl
        · obtain rfl := hbegins _ rfl
          have hall := hstands.finishStmt (.statement (.expression hexpr)) hq
          simpa using hall.viable
        · cases hq
        · cases hq
      | @printOperand _ _ b _ _ _ hstands =>
        rcases token_of_endsExpression ht with rfl | rfl | rfl
        · cases hq
        · cases hq
          exact .mk hstands (.printEnd (b := b) (c := a) (.some hexpr)) (by simp)
        · cases hq
      | @branchCond _ _ b _ _ _ hstands hbranch =>
        rcases token_of_endsExpression ht with rfl | rfl | rfl
        · cases hq
        · cases hq
          exact .mk hstands (.branchBrace (b := b) (c := a) hbranch hexpr) (by simp)
        · cases hq
      | @loopCond _ b _ _ _ hstands =>
        rcases token_of_endsExpression ht with rfl | rfl | rfl
        · cases hq
        · cases hq
          exact .mk hstands (.loopBrace (b := b) (c := a) hexpr) (by simp)
        · cases hq
      | grouping hstands hbegins' =>
        rcases token_of_endsExpression ht with rfl | rfl | rfl
        · cases hq
        · cases hq
          exact .mk hstands (.complete (.climb rfl (.grouping hexpr)) (hbegins'.cons _))
            (by simp)
        · cases hq
      | @arguments _ _ _ _ b _ _ _ _ _ _ _ hstands hcallee hbegins' hargs =>
        rcases token_of_endsExpression ht with rfl | rfl | rfl
        · cases hq
        · cases hq
          rw [hcallee.start_eq]
          exact .mk hstands (.called (a := b) hcallee (.last hargs hexpr) hbegins')
            (by simp)
        · cases hq
          have hmore := hargs.more (a := a) hexpr
          rw [← reverse_cons] at hmore
          exact .mk (.arguments (a := b) hstands hcallee hbegins' hmore)
            .operand (by simp)

/-! ## Feeding a token -/

private theorem Stands.feedOperand {start : Option Nat}
    (h : Stands firstId (.phrase rank start) layers ts n)
    (hbegins : Begins start [⟨t, a⟩])
    (hq : Parser.feedOperand ⟨layers, focus, n⟩ t a = .ok q) :
    Viable firstId q (ts ++ [⟨t, a⟩]) := by
  have hliteral (v : Literal) (hv : v.token = t)
      (hq : Parser.move ⟨layers, focus, n⟩ layers (.complete (.literal a v)) = .ok q) :
      Viable firstId q (ts ++ [⟨t, a⟩]) := by
    cases hq
    subst hv
    exact .mk h (.complete (.climb rfl .literal) hbegins) rfl
  cases t with
  | number value => exact hliteral (.number value) rfl hq
  | string value => exact hliteral (.string value) rfl hq
  | ident name =>
    cases hq
    exact .mk h (.ident hbegins) rfl
  | word k =>
    cases k with
    | true => exact hliteral (.bool true) rfl hq
    | false => exact hliteral (.bool false) rfl hq
    | nil => exact hliteral .nil rfl hq
    | this =>
      cases hq
      exact .mk h (.complete (.climb rfl .this) hbegins) rfl
    | super =>
      cases hq
      exact .mk h (.superDot hbegins) rfl
    | _ => cases hq
  | sign s =>
    cases s with
    | lparen =>
      cases hq
      exact .mk (.grouping h hbegins) .operand (by simp)
    | minus =>
      cases hq
      have hunary : Stands firstId (.phrase .unary none) (.unary a.start .neg :: layers)
          (ts ++ [⟨.sign .minus, a⟩]) n := .unary h hbegins
      exact .mk hunary .operand (by simp)
    | bang =>
      cases hq
      have hunary : Stands firstId (.phrase .unary none) (.unary a.start .not :: layers)
          (ts ++ [⟨.sign .bang, a⟩]) n := .unary h hbegins
      exact .mk hunary .operand (by simp)
    | rparen =>
      -- An operand may be missing between the parentheses of `print` and of a call.
      clear hliteral
      cases h with
      | @printOperand _ _ b _ _ _ h =>
        cases hq
        exact .mk h (.printEnd (b := b) (c := a) .none) (by simp)
      | @arguments _ _ _ _ b _ _ _ _ _ _ _ h hcallee hbegins' hargs =>
        cases hq
        rw [hcallee.start_eq]
        exact .mk h (.called (a := b) (b := a) hcallee (.closed hargs) hbegins')
          (by simp)
      | @join _ _ _ _ _ op _ _ _ _ _ _ hlayer =>
        subst hlayer
        cases op <;> cases hq
      | _ => cases hq
    | semi =>
      -- `return;`
      clear hliteral
      cases h with
      | retOperand h =>
        have hall := h.finishStmt (.statement (.ret (b := a) .none)) hq
        simpa using hall.viable
      | @join _ _ _ _ _ op _ _ _ _ _ _ hlayer =>
        subst hlayer
        cases op <;> cases hq
      | _ => cases hq
    | _ => cases hq

private theorem Stands.rank_eq {start : Option Nat}
    (h : Stands firstId (.phrase rank start) layers ts n)
    (hin : inOperator ⟨layers, focus, m⟩ = false) : rank = .assignment := by
  cases h with
  | unary => cases hin
  | @join _ _ _ _ _ op _ _ _ _ _ _ hlayer =>
    subst hlayer
    cases op <;> cases hin
  | _ => rfl

private theorem token_of_ofToken? (h : Operator.ofToken? t = some op) :
    t = op.token := by
  cases t with
  | word k => cases k <;> cases h <;> rfl
  | sign s => cases s <;> cases h <;> rfl
  | _ => cases h

private theorem Stands.feedComplete {start : Option Nat}
    (h : Stands firstId (.phrase rank start) layers ts n) (he : Phrase .call us n e m)
    (hbegins : Begins start us)
    (hq : Parser.feedComplete ⟨layers, .complete e, m⟩ e t a = .ok q) :
    Viable firstId q (ts ++ us ++ [⟨t, a⟩]) := by
  have hrank : rank.level ≤ Rank.call.level := Nat.le_trans h.level_le (by decide)
  have hfills := Fills.mk h he hrank hbegins
  unfold Parser.feedComplete at hq
  split at hq
  · cases hq
    exact .mk (.arguments (a := a) h he hbegins .nil) .operand (by simp)
  · cases hq
    exact .mk h (.propertyName (a := a) he hbegins) (by simp)
  · split at hq
    · split at hq
      · cases hq
      · next hin =>
        cases hq
        obtain rfl := h.rank_eq (Bool.eq_false_iff.2 hin)
        obtain ⟨vs, b, rfl, hobject⟩ := he.of_get rfl
        have hbegins := hbegins.of_append hobject.ne_nil
        exact .mk (.set (a := b) (c := a) h hobject hbegins) .operand (by simp)
    · cases hq
  · split at hq
    · next op hop =>
      cases hq
      obtain rfl := token_of_ofToken? hop
      have hle : (rankOf op).level ≤ Rank.call.level :=
        Nat.le_trans (Nat.le_of_lt (level_rankOf_lt op)) (by decide)
      exact (hfills.closeOperators op hle).viable a
    · split at hq
      · next hends =>
        have hstop : e.span.stop = stopOf (ts ++ us) := by
          rw [stopOf_append _ he.ne_nil, he.span_eq (by decide)]
          rfl
        simp only [hstop] at hq
        exact hfills.feedEnd hends hq
      · cases hq

private theorem Stands.feedNumbered {start : Option Nat}
    (h : Stands firstId (.phrase rank start) layers ts n)
    (he : Phrase .call us n e (m + 1)) (hbegins : Begins start us)
    (hq : Parser.feedNumbered ⟨layers, focus, m⟩ e t a = .ok q) :
    Viable firstId q (ts ++ us ++ [⟨t, a⟩]) := by
  unfold Parser.feedNumbered at hq
  split at hq
  · exact h.feedComplete he hbegins hq
  · cases hq

private theorem Stands.feedDeclaration (h : Stands firstId .declaration layers ts n)
    (hq : Parser.feedDeclaration ⟨layers, focus, n⟩ t a = .ok q) :
    Viable firstId q (ts ++ [⟨t, a⟩]) := by
  unfold Parser.feedDeclaration at hq
  split at hq
  · cases hq
    exact .mk h (.funcName .declaration) rfl
  · cases hq
    exact .mk h .className rfl
  · cases hq
    exact .mk h .varName rfl
  · cases hq
    exact .mk h .printOpen rfl
  · cases hq
    exact .mk h .printOpen rfl
  · cases hq
    exact .mk (.retOperand h) .operand (by simp)
  · cases hq
    exact .mk h .brkEnd rfl
  · cases hq
    exact .mk h (.branchOpen .declaration) rfl
  · cases hq
    exact .mk h .loopOpen rfl
  · cases hq
    exact .mk (.body (.block h) .nil) .declaration (by simp)
  · exact h.closeBody hq
  · refine (Stands.statement h).feedOperand ?_ hq
    rintro s ⟨⟩
    rfl

section

-- One lemma for each construct: of the cases of `Parser.feed` only its own are left.
variable {hole : Hole} {vs : Tokens}

private theorem Stands.feedList (h : Stands firstId hole layers us n)
    (hat : At focus hole vs n m) (hfocus : focus.construct = .list)
    (hq : Parser.feed ⟨layers, focus, m⟩ ⟨t, a⟩ = .ok q) :
    Viable firstId q (us ++ (vs ++ [⟨t, a⟩])) := by
  simp only [Parser.feed] at hq
  split at hq <;> first | cases hfocus | cases hq
  · cases hat
    exact h.feedDeclaration hq
  · cases hat
    cases hq
    exact .mk h (.funcName .method) rfl
  · cases hat
    exact h.closeClass hq

private theorem Stands.feedExpression (h : Stands firstId hole layers us n)
    (hat : At focus hole vs n m) (hfocus : focus.construct = .expression)
    (hq : Parser.feed ⟨layers, focus, m⟩ ⟨t, a⟩ = .ok q) :
    Viable firstId q (us ++ (vs ++ [⟨t, a⟩])) := by
  simp only [Parser.feed] at hq
  split at hq <;> first | cases hfocus | cases hq
  · cases hat
    exact h.feedOperand (.none _) hq
  · cases hat with
    | ident hbegins =>
      split at hq
      · cases hq
      · next hin =>
        cases hq
        obtain rfl := h.rank_eq (Bool.eq_false_iff.2 hin)
        exact .mk (.assign (b := a) h hbegins) .operand (by simp)
  · cases hat with
    | ident hbegins => simpa using h.feedNumbered (.climb rfl .var) hbegins hq
  · cases hat with
    | called hcallee hargs hbegins =>
      have hbegins := hbegins.append hcallee.ne_nil
      simpa using h.feedNumbered (.call hcallee hargs) (hbegins _) hq
  · cases hat with
    | complete he hbegins => simpa using h.feedComplete he hbegins hq
  · cases hat with
    | @propertyName _ _ _ _ b _ _ hobject hbegins =>
      cases hq
      rw [hobject.start_eq]
      have hbegins := hbegins.append hobject.ne_nil
      exact .mk h (.complete (.get (a := b) hobject) (hbegins _)) (by simp)
  · cases hat with
    | superDot hbegins =>
      cases hq
      exact .mk h (.superName hbegins) rfl
  · cases hat with
    | superName hbegins =>
      cases hq
      exact .mk h (.complete (.climb rfl .super) (hbegins.cons _)) rfl

private theorem Stands.feedFunction (h : Stands firstId hole layers us n)
    (hat : At focus hole vs n m) (hfocus : focus.construct = .function)
    (hq : Parser.feed ⟨layers, focus, m⟩ ⟨t, a⟩ = .ok q) :
    Viable firstId q (us ++ (vs ++ [⟨t, a⟩])) := by
  simp only [Parser.feed] at hq
  split at hq <;> first | cases hfocus | cases hq
  · cases hat with
    | funcName hhole =>
      cases hq
      exact .mk h (.funcOpen hhole) rfl
  · cases hat with
    | funcOpen hhole =>
      cases hq
      exact .mk h (.param hhole .nil) rfl
  · cases hat with
    | param hhole hps =>
      cases hq
      exact .mk h (.paramNext hhole hps) rfl
  · cases hat with
    | param hhole hps =>
      cases hq
      exact .mk h (.funcEq hhole (.closed hps)) rfl
  · cases hat with
    | @paramNext _ _ y _ _ c d _ _ _ _ hhole hps =>
      cases hq
      have hmore := hps.more (a := a) (.mk (x := y) (a := d))
      rw [← reverse_cons] at hmore
      exact .mk h (.param (c := c) hhole hmore) (by simp)
  · cases hat with
    | @paramNext _ _ _ _ _ c _ _ _ _ _ hhole hps =>
      cases hq
      rw [reverse_cons]
      exact .mk h (.funcEq (c := c) (d := a) hhole (.last hps .mk)) (by simp)
  · cases hat with
    | @funcEq _ _ _ _ c d _ _ _ _ hhole hps =>
      cases hq
      exact .mk h (.funcBrace (c := c) (d := d) (e := a) hhole hps) (by simp)
  · cases hat with
    | @funcBrace _ x f g c d e _ _ _ _ hhole hps =>
      cases hq
      have hopens :=
        Opens.functionBody (x := x) (a := f) (b := g) (c := c) (d := d) (e := e)
        (f := a) h hhole hps
      exact .mk (.body hopens .nil) .declaration (by simp)

private theorem Stands.feedClass (h : Stands firstId hole layers us n)
    (hat : At focus hole vs n m) (hfocus : focus.construct = .cls)
    (hq : Parser.feed ⟨layers, focus, m⟩ ⟨t, a⟩ = .ok q) :
    Viable firstId q (us ++ (vs ++ [⟨t, a⟩])) := by
  simp only [Parser.feed] at hq
  split at hq <;> first | cases hfocus | cases hq
  · cases hat
    cases hq
    exact .mk h .classNext rfl
  · cases hat
    cases hq
    exact .mk h .superclassName rfl
  · cases hat
    cases hq
    exact .mk h (.classBrace .none) rfl
  · cases hat
    cases hq
    exact .mk h .classEq rfl
  · cases hat
    cases hq
    exact .mk h (.classBrace .some) rfl
  · cases hat with
    | @classBrace _ _ _ c _ _ _ _ hss =>
      cases hq
      exact .mk (.classBody (c := c) (d := a) h hss .nil) .member (by simp)

private theorem Stands.feedBranch (h : Stands firstId hole layers us n)
    (hat : At focus hole vs n m) (hfocus : focus.construct = .branch)
    (hq : Parser.feed ⟨layers, focus, m⟩ ⟨t, a⟩ = .ok q) :
    Viable firstId q (us ++ (vs ++ [⟨t, a⟩])) := by
  simp only [Parser.feed] at hq
  split at hq <;> first | cases hfocus | cases hq
  · cases hat with
    | branchOpen hhole =>
      cases hq
      exact .mk (.branchCond (b := a) h hhole) .operand (by simp)
  · cases hat with
    | @branchBrace _ _ f b c _ _ _ hhole hcond =>
      cases hq
      have hopens := Opens.thenBody (a := f) (b := b) (c := c) (d := a) h hhole hcond
      exact .mk (.body hopens .nil) .declaration (by simp)
  · cases hat with
    | branchNext hhole hhead =>
      cases hq
      exact .mk h (.elseNext hhole hhead) rfl
  · cases hat with
    | branchNext hhole hhead =>
      split at hq
      · next p hp =>
        cases h.finishBranch hhole hhead.conditional hp with
        | mk h => simpa using h.feedDeclaration hq
      · cases hq
  · cases hat with
    | @elseNext _ _ _ _ b _ _ _ hhole hhead =>
      cases hq
      have hopens := Opens.elseBody (a := b) (b := a) h hhole hhead
      exact .mk (.body hopens .nil) .declaration (by simp)
  · cases hat with
    | @elseNext _ _ _ _ b _ _ _ hhole hhead =>
      cases hq
      exact .mk (.elseIf (a := b) h hhole hhead) (.branchOpen .branch) (by simp)

private theorem Stands.feedStatement (h : Stands firstId hole layers us n)
    (hat : At focus hole vs n m) (hfocus : focus.construct = .statement)
    (hq : Parser.feed ⟨layers, focus, m⟩ ⟨t, a⟩ = .ok q) :
    Viable firstId q (us ++ (vs ++ [⟨t, a⟩])) := by
  simp only [Parser.feed] at hq
  split at hq <;> first | cases hfocus | cases hq
  · cases hat
    cases hq
    exact .mk h .varNext rfl
  · cases hat
    cases hq
    exact .mk (.varInit (c := a) h) .operand (by simp)
  · cases hat
    exact (h.finishStmt (.statement .var) hq).viable
  · cases hat
    cases hq
    exact .mk (.printOperand (b := a) h) .operand (by simp)
  · cases hat with
    | @printEnd _ _ _ b c _ _ _ hoperand =>
      have hall := h.finishStmt (.statement (.print (b := b) (c := c) hoperand)) hq
      simpa using hall.viable
  · cases hat
    exact (h.finishStmt (.statement .brk) hq).viable
  · cases hat
    cases hq
    exact .mk (.loopCond (b := a) h) .operand (by simp)
  · cases hat with
    | @loopBrace _ f b c _ _ _ hcond =>
      cases hq
      have hopens := Opens.loopBody (a := f) (b := b) (c := c) (d := a) h hcond
      exact .mk (.body hopens .nil) .declaration (by simp)

end

/-- A token keeps what the state stands for. -/
theorem Viable.feed {t : Located Token} (h : Viable firstId p ts)
    (hq : p.feed t = .ok q) :
    Viable firstId q (ts ++ [t]) := by
  cases h with
  | @mk _ focus _ _ _ _ _ _ hstands hat hts =>
    rw [hts, append_assoc]
    cases hfocus : focus.construct with
    | list => exact hstands.feedList hat hfocus hq
    | expression => exact hstands.feedExpression hat hfocus hq
    | function => exact hstands.feedFunction hat hfocus hq
    | cls => exact hstands.feedClass hat hfocus hq
    | branch => exact hstands.feedBranch hat hfocus hq
    | statement => exact hstands.feedStatement hat hfocus hq

/-! ## Whole texts -/

theorem Viable.start : Viable firstId (Parser.start firstId) [] :=
  .mk (.body .program .nil) .declaration rfl

private theorem Settles.finish (h : Settles firstId p ts n)
    (hp : p.finish = some program) : Derives firstId ts program n := by
  cases h with
  | mk hstands =>
    cases hstands with
    | body hopens hbody =>
      cases hopens with
      | program =>
        cases hp
        exact hbody
      | _ => cases hp

private theorem focus_of_finish (h : p.finish = some program) :
    p.focus = .declaration ∨ ∃ start cond onTrue q,
      p.focus = .branchNext start cond onTrue ∧ p.endBranch start cond onTrue = .ok q ∧
      q.finish = some program := by
  unfold Parser.finish at h
  dsimp only at h
  split at h
  · next p' done n hp' =>
    split at hp'
    · next start cond onTrue hfocus =>
      refine .inr ⟨start, cond, onTrue, ⟨[.program done], .declaration, n⟩,
        hfocus, ?_, h⟩
      cases hend : p.endBranch start cond onTrue with
      | error => rw [hend] at hp'; cases hp'
      | ok q => rw [hend] at hp'; cases hp'; rfl
    · cases hp'
      exact .inl rfl
  · cases h

/-- When the tokens may end, they are a program. -/
theorem Viable.finish (h : Viable firstId p ts) (hp : p.finish = some program) :
    Derives firstId ts program p.nextId := by
  cases h with
  | mk hstands hat hts =>
    subst hts
    rcases focus_of_finish hp with hfocus | ⟨start, cond, onTrue, q, hfocus, hend, hq⟩
    · subst hfocus
      cases hat
      rw [append_nil]
      exact (Settles.mk hstands).finish hp
    · subst hfocus
      cases hat with
      | branchNext hhole hhead =>
        exact (hstands.finishBranch hhole hhead.conditional hend).finish hq

private theorem Viable.parseFrom {stop : Nat} {next : NodeId} (h : Viable firstId p ts)
    (hp : p.parseFrom stop us = (.ok program, next)) :
    Derives firstId (ts ++ us) program next := by
  induction us generalizing p ts stop with
  | nil =>
    simp only [Parser.parseFrom] at hp
    split at hp
    · next hfinish =>
      cases hp
      rw [append_nil]
      exact h.finish hfinish
    · cases hp
  | cons t us ih =>
    simp only [Parser.parseFrom] at hp
    split at hp
    · next hfeed =>
      rw [append_cons]
      exact ih (h.feed hfeed) hp
    · cases hp

end Parser

/-- A list of tokens that the parser accepts is a program, with the tree and the numbers
that it gives. -/
theorem derives_of_parse {firstId next : NodeId} {tokens : Tokens} {program : Program}
    (h : parse firstId tokens = (.ok program, next)) :
    Derives firstId tokens program next :=
  Parser.Viable.start.parseFrom h

end Treewalk
