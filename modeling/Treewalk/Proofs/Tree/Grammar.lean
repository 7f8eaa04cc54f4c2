import Treewalk.Tree.Layer

/-!
# The grammar

What a program is, said without a parser: for every kind of construct a predicate that
relates the tokens of the construct to its tree. The rules are those of the language's
grammar, one constructor a rule. Expressions form a ladder of ranks, from assignments
down to single words; a rule of a rank may use its own rank on one side only, which
fixes how operators group.

A rule also says where its node stands, from its first token to its last, and which
number it draws. `Phrase rank ts n e m` reads: the tokens `ts` are an expression of this
rank with the tree `e`, and drawing numbers for it from `n` on leaves `m` as the next
free one. A node draws its number when its last part is there.

## Main definitions

* `Phrase` — expressions, by `Rank`.
* `Declarations`, `Declaration`, `Statement`, `Conditional`, `FunctionDeclaration`,
  `Methods`.
* `Derives` — whole programs.
-/

namespace Treewalk

open List

/-! ## Spellings -/

/-- The sign that spells a unary operator. -/
def UnaryOp.sign : UnaryOp → Sign
  | neg => .minus
  | not => .bang

/-- The token that spells a literal. -/
def Literal.token : Literal → Token
  | number n => .number n
  | string s => .string s
  | bool true => .word .true
  | bool false => .word .false
  | nil => .word .nil

/-- The sign that spells a binary operator. -/
def BinaryOp.sign : BinaryOp → Sign
  | add => .plus
  | sub => .minus
  | mul => .star
  | div => .slash
  | eq => .eqEq
  | ne => .notEq
  | gt => .gt
  | ge => .gtEq
  | lt => .lt
  | le => .ltEq

/-- The word that spells a logical operator. -/
def LogicalOp.word : LogicalOp → Keyword
  | and => .and
  | or => .or

/-- The token that spells an operator between two operands. -/
def Operator.token : Operator → Token
  | binary op => .sign op.sign
  | logical op => .word op.word

/-- The two operands joined. The place of the whole covers both places. -/
def Operator.join (left right : Expr) : Operator → Expr
  | binary op => .binary (left.span.merge right.span) left op right
  | logical op => .logical (left.span.merge right.span) left op right

theorem closeOperators_layer {level : Nat} {op : Operator} (h : level ≤ op.level)
    (layers : List Layer) (left right : Expr) :
    closeOperators level (op.layer left :: layers) right =
      closeOperators level layers (op.join left right) := by
  cases op <;> exact if_pos h

theorem closeOperators_layer_of_lt {level : Nat} {op : Operator} (h : op.level < level)
    (layers : List Layer) (left right : Expr) :
    closeOperators level (op.layer left :: layers) right =
      (op.layer left :: layers, right) := by
  cases op <;> exact if_neg (Nat.not_le.2 h)

/-- The word that starts a statement that prints. -/
def printWord (newline : Bool) : Keyword :=
  if newline then .printLine else .print

namespace Grammar

/-! ## Places -/

abbrev Tokens := List (Located Token)

/-- Where the first token starts. -/
def startOf (ts : Tokens) : Nat :=
  (ts.head?.map fun t => t.span.start).getD 0

/-- Where the last token stops. -/
def stopOf (ts : Tokens) : Nat :=
  (ts.getLast?.map fun t => t.span.stop).getD 0

/-- The place from the first token to the last. -/
def extent (ts : Tokens) : Span :=
  ⟨startOf ts, stopOf ts⟩

@[simp] theorem startOf_cons (t : Located Token) (ts : Tokens) :
    startOf (t :: ts) = t.span.start :=
  rfl

@[simp] theorem stopOf_singleton (t : Located Token) : stopOf [t] = t.span.stop :=
  rfl

@[simp] theorem stopOf_append_cons (ts us : Tokens) (t : Located Token) :
    stopOf (ts ++ t :: us) = stopOf (t :: us) := by
  simp [stopOf, List.getLast?_cons]

@[simp] theorem stopOf_cons_cons (t u : Located Token) (ts : Tokens) :
    stopOf (t :: u :: ts) = stopOf (u :: ts) := by
  simp [stopOf, List.getLast?_cons_cons]

@[simp] theorem stopOf_cons_append_cons (t u : Located Token) (ts us : Tokens) :
    stopOf (t :: (ts ++ u :: us)) = stopOf (u :: us) :=
  stopOf_append_cons (t :: ts) us u

variable {ts : Tokens}

theorem startOf_append (us : Tokens) (h : ts ≠ []) :
    startOf (ts ++ us) = startOf ts := by
  cases ts with
  | nil => exact absurd rfl h
  | cons t ts => rfl

theorem stopOf_append (ts : Tokens) {us : Tokens} (h : us ≠ []) :
    stopOf (ts ++ us) = stopOf us := by
  cases us with
  | nil => exact absurd rfl h
  | cons u us => exact stopOf_append_cons ts us u

theorem exists_startOf (h : ts ≠ []) : ∃ t ∈ ts, startOf ts = t.span.start := by
  obtain ⟨t, rest, rfl⟩ := exists_cons_of_ne_nil h
  exact ⟨t, mem_cons_self, rfl⟩

theorem exists_stopOf (h : ts ≠ []) : ∃ t ∈ ts, stopOf ts = t.span.stop := by
  refine ⟨ts.getLast h, getLast_mem h, ?_⟩
  rw [stopOf, List.getLast?_eq_some_getLast h]
  rfl

/-! ## Lists and optional parts -/

section Lists

variable {α : Type} (P : Tokens → NodeId → α → NodeId → Prop)

/-- Any number of items, each followed by a comma. -/
inductive Commaed : Tokens → NodeId → List α → NodeId → Prop
  | nil {n} : Commaed [] n [] n
  | more {ts us n m k xs x a} : Commaed ts n xs m → P us m x k →
      Commaed (ts ++ (us ++ [⟨.sign .comma, a⟩])) n (xs ++ [x]) k

/-- Items between commas, with or without a comma after the last one. -/
inductive Comma : Tokens → NodeId → List α → NodeId → Prop
  | closed {ts n m xs} : Commaed P ts n xs m → Comma ts n xs m
  | last {ts us n m k xs x} : Commaed P ts n xs m → P us m x k →
      Comma (ts ++ us) n (xs ++ [x]) k

/-- Nothing, or one item. -/
inductive Optional : Tokens → NodeId → Option α → NodeId → Prop
  | none {n} : Optional [] n none n
  | some {ts n m x} : P ts n x m → Optional ts n (some x) m

end Lists

/-- A name at its place. -/
inductive Named : Tokens → NodeId → Name → NodeId → Prop
  | mk {n x a} : Named [⟨.ident x, a⟩] n ⟨x, a⟩ n

/-! ## Expressions -/

/-- The ranks of expressions, from the loosest to the tightest. -/
inductive Rank where
  | assignment | or | and | equality | comparison
  | term | factor | unary | call | primary
deriving DecidableEq

/-- The next tighter rank. -/
def Rank.tighter : Rank → Option Rank
  | assignment => some or
  | or => some and
  | and => some equality
  | equality => some comparison
  | comparison => some term
  | term => some factor
  | factor => some unary
  | unary => some call
  | call => some primary
  | primary => none

/-- The rank whose operator this is. -/
def rankOf : Operator → Rank
  | .logical .or => .or
  | .logical .and => .and
  | .binary .eq | .binary .ne => .equality
  | .binary .gt | .binary .ge | .binary .lt | .binary .le => .comparison
  | .binary .add | .binary .sub => .term
  | .binary .mul | .binary .div => .factor

/-- Expressions. Operators group to the left: the left operand has the operator's own
rank, the right one the next tighter rank. Assignments group to the right. -/
inductive Phrase : Rank → Tokens → NodeId → Expr → NodeId → Prop
  /-- `name = value` -/
  | assign {x a b ts n v m} : Phrase .assignment ts n v m →
      Phrase .assignment (⟨.ident x, a⟩ :: ⟨.sign .eq, b⟩ :: ts) n
        (.assign ⟨a.start, stopOf ts⟩ m x v) (m + 1)
  /-- `object.name = value` -/
  | set {ts us n m k object v x a b c} : Phrase .call ts n object m →
      Phrase .assignment us m v k →
      Phrase .assignment
      (ts ++ ⟨.sign .dot, a⟩ :: ⟨.ident x, b⟩ :: ⟨.sign .eq, c⟩ :: us) n
        (.set ⟨startOf ts, stopOf us⟩ object ⟨x, b⟩ v) k
  | join {op tight ts us n m k left right a} : (rankOf op).tighter = some tight →
      Phrase (rankOf op) ts n left m → Phrase tight us m right k →
      Phrase (rankOf op) (ts ++ ⟨op.token, a⟩ :: us) n (op.join left right) k
  | unary {op a ts n e m} : Phrase .unary ts n e m →
      Phrase .unary (⟨.sign op.sign, a⟩ :: ts) n (.unary ⟨a.start, stopOf ts⟩ op e) m
  /-- `callee(args)` -/
  | call {ts us n m k callee args a b} : Phrase .call ts n callee m →
      Comma (Phrase .assignment) us m args k →
      Phrase .call (ts ++ ⟨.sign .lparen, a⟩ :: (us ++ [⟨.sign .rparen, b⟩])) n
        (.call ⟨startOf ts, b.stop⟩ k callee args) (k + 1)
  /-- `object.name` -/
  | get {ts n m object x a b} : Phrase .call ts n object m →
      Phrase .call (ts ++ [⟨.sign .dot, a⟩, ⟨.ident x, b⟩]) n
        (.get ⟨startOf ts, b.stop⟩ object ⟨x, b⟩) m
  | literal {v a n} : Phrase .primary [⟨Literal.token v, a⟩] n (.literal a v) n
  | this {a n} : Phrase .primary [⟨.word .this, a⟩] n (.this a) n
  /-- `super.method` -/
  | super {x a b c n} :
      Phrase .primary [⟨.word .super, a⟩, ⟨.sign .dot, b⟩, ⟨.ident x, c⟩] n
        (.super ⟨a.start, c.stop⟩ ⟨x, c⟩) n
  | var {x a n} : Phrase .primary [⟨.ident x, a⟩] n (.var a n x) (n + 1)
  | grouping {ts n m e a b} : Phrase .assignment ts n e m →
      Phrase .primary (⟨.sign .lparen, a⟩ :: (ts ++ [⟨.sign .rparen, b⟩])) n
        (.grouping ⟨a.start, b.stop⟩ e) m
  /-- Every rank holds the tighter ones. -/
  | climb {rank tight ts n e m} : rank.tighter = some tight → Phrase tight ts n e m →
      Phrase rank ts n e m

/-! ## Statements and declarations -/

/-- A body between braces. -/
def braced (a : Span) (ts : Tokens) (b : Span) : Tokens :=
  ⟨.sign .lbrace, a⟩ :: (ts ++ [⟨.sign .rbrace, b⟩])

/-- Nothing, or a colon and the name of the superclass. -/
inductive Superclass : Tokens → NodeId → Option Expr → NodeId → Prop
  | none {n} : Superclass [] n none n
  | some {x a b n} : Superclass [⟨.sign .colon, a⟩, ⟨.ident x, b⟩] n
      (some (.var b n x)) (n + 1)

mutual

/-- Declarations and statements one after the other. -/
inductive Declarations : Tokens → NodeId → List Stmt → NodeId → Prop
  | nil {n} : Declarations [] n [] n
  | more {ts us n m k body s} : Declarations ts n body m → Declaration us m s k →
      Declarations (ts ++ us) n (body ++ [s]) k

inductive Declaration : Tokens → NodeId → Stmt → NodeId → Prop
  | function {ts n decl m} : FunctionDeclaration ts n decl m →
      Declaration ts n (.funcDecl (extent ts) decl) m
  /-- `class name : superclass = { methods }` -/
  | cls {x a b c d e ss ms n m k superclass methods} : Superclass ss n superclass m →
      Methods ms m methods k →
      Declaration
        (⟨.word .cls, a⟩ :: ⟨.ident x, b⟩ :: (ss ++ ⟨.sign .eq, c⟩ :: braced d ms e)) n
        (.classDecl ⟨a.start, e.stop⟩ (.mk ⟨x, b⟩ superclass methods ⟨a.start, e.stop⟩))
        k
  | statement {ts n s m} : Statement ts n s m → Declaration ts n s m

/-- `func name(params) = { body }` -/
inductive FunctionDeclaration : Tokens → NodeId → FunctionDecl → NodeId → Prop
  | mk {x a b c d e f g ps ts n m k params body} : Comma Named ps n params m →
      Declarations ts m body k →
      FunctionDeclaration
        (⟨.word .func, a⟩ :: ⟨.ident x, b⟩ :: ⟨.sign .lparen, c⟩ ::
          (ps ++ ⟨.sign .rparen, d⟩ :: ⟨.sign .eq, e⟩ :: braced f ts g)) n
        (.mk ⟨x, b⟩ params body ⟨a.start, g.stop⟩) k

/-- The functions of a class one after the other. -/
inductive Methods : Tokens → NodeId → List FunctionDecl → NodeId → Prop
  | nil {n} : Methods [] n [] n
  | more {ts us n m k methods decl} : Methods ts n methods m →
      FunctionDeclaration us m decl k → Methods (ts ++ us) n (methods ++ [decl]) k

inductive Statement : Tokens → NodeId → Stmt → NodeId → Prop
  /-- `var name;` -/
  | var {x a b c n} :
      Statement [⟨.word .var, a⟩, ⟨.ident x, b⟩, ⟨.sign .semi, c⟩] n
        (.var ⟨a.start, c.stop⟩ ⟨x, b⟩ none) n
  /-- `var name = init;` -/
  | varInit {x a b c d ts n e m} : Phrase .assignment ts n e m →
      Statement
        (⟨.word .var, a⟩ :: ⟨.ident x, b⟩ :: ⟨.sign .eq, c⟩ ::
          (ts ++ [⟨.sign .semi, d⟩])) n
        (.var ⟨a.start, d.stop⟩ ⟨x, b⟩ (some e)) m
  /-- `print(operand);` and `printLine(operand);` -/
  | print {newline a b c d ts n operand m} :
      Optional (Phrase .assignment) ts n operand m → Statement
        (⟨.word (printWord newline), a⟩ :: ⟨.sign .lparen, b⟩ ::
          (ts ++ [⟨.sign .rparen, c⟩, ⟨.sign .semi, d⟩])) n
        (.print ⟨a.start, d.stop⟩ newline operand) m
  /-- `return operand;` -/
  | ret {a b ts n operand m} : Optional (Phrase .assignment) ts n operand m →
      Statement (⟨.word .ret, a⟩ :: (ts ++ [⟨.sign .semi, b⟩])) n
        (.ret ⟨a.start, b.stop⟩ operand) m
  /-- `break;` -/
  | brk {a b n} :
      Statement [⟨.word .brk, a⟩, ⟨.sign .semi, b⟩] n (.brk ⟨a.start, b.stop⟩) n
  | conditional {ts n s m} : Conditional ts n s m → Statement ts n s m
  /-- `while (cond) { body }` -/
  | loop {a b c d e ts us n m k cond body} : Phrase .assignment ts n cond m →
      Declarations us m body k →
      Statement
        (⟨.word .whiles, a⟩ :: ⟨.sign .lparen, b⟩ ::
          (ts ++ ⟨.sign .rparen, c⟩ :: braced d us e)) n
        (.loop ⟨a.start, e.stop⟩ cond (.block ⟨d.start, e.stop⟩ body)) k
  /-- `{ body }` -/
  | block {a b ts n body m} : Declarations ts n body m →
      Statement (braced a ts b) n (.block ⟨a.start, b.stop⟩ body) m
  | expression {a ts n e m} : Phrase .assignment ts n e m →
      Statement (ts ++ [⟨.sign .semi, a⟩]) n (.expression ⟨startOf ts, a.stop⟩ e) m

inductive Conditional : Tokens → NodeId → Stmt → NodeId → Prop
  /-- `if (cond) { body }` -/
  | plain {a b c d e ts us n m k cond body} : Phrase .assignment ts n cond m →
      Declarations us m body k →
      Conditional
        (⟨.word .ifs, a⟩ :: ⟨.sign .lparen, b⟩ ::
          (ts ++ ⟨.sign .rparen, c⟩ :: braced d us e)) n
        (.branch ⟨a.start, e.stop⟩ cond (.block ⟨d.start, e.stop⟩ body) none) k
  /-- `if (cond) { body } else { other }` -/
  | otherwise {a b c d e f g h ts us vs n m k l cond body other} :
      Phrase .assignment ts n cond m → Declarations us m body k →
      Declarations vs k other l → Conditional
        (⟨.word .ifs, a⟩ :: ⟨.sign .lparen, b⟩ :: (ts ++ ⟨.sign .rparen, c⟩ ::
          (braced d us e ++ ⟨.word .els, f⟩ :: braced g vs h))) n
        (.branch ⟨a.start, h.stop⟩ cond (.block ⟨d.start, e.stop⟩ body)
          (some (.block ⟨g.start, h.stop⟩ other))) l
  /-- `if (cond) { body } else if ...` -/
  | chained {a b c d e f ts us vs n m k l cond body s} :
      Phrase .assignment ts n cond m → Declarations us m body k → Conditional vs k s l →
      Conditional
        (⟨.word .ifs, a⟩ :: ⟨.sign .lparen, b⟩ :: (ts ++ ⟨.sign .rparen, c⟩ ::
          (braced d us e ++ ⟨.word .els, f⟩ :: vs))) n
        (.branch ⟨a.start, stopOf vs⟩ cond (.block ⟨d.start, e.stop⟩ body) (some s)) l

end

variable {r t : Rank}

/-- The tokens are a program with this tree, its nodes numbered from `firstId` on. -/
def Derives (firstId : NodeId) (tokens : Tokens) (program : Program) (next : NodeId) :
    Prop :=
  Declarations tokens firstId program.stmts next

/-! ## Ranks as numbers -/

/-- The place of a rank on the ladder. -/
def Rank.level : Rank → Nat
  | assignment => 0
  | or => 1
  | and => 2
  | equality => 3
  | comparison => 4
  | term => 5
  | factor => 6
  | unary => 7
  | call => 8
  | primary => 9

theorem Rank.level_of_tighter (h : r.tighter = some t) : t.level = r.level + 1 := by
  cases r <;> cases h <;> rfl

private theorem Rank.eq_of_level_eq (h : r.level = t.level) : r = t := by
  cases r <;> cases t <;> first | rfl | cases h

theorem Rank.tighter_of_level_lt (h : r.level < t.level) : ∃ u, r.tighter = some u := by
  cases r with
  | primary => cases t <;> simp only [level] at h <;> omega
  | _ => exact ⟨_, rfl⟩

theorem level_rankOf (op : Operator) : (rankOf op).level = op.level := by
  rcases op with op | op <;> cases op <;> rfl

/-- An operator's rank is looser than that of a unary expression. -/
theorem level_rankOf_lt (op : Operator) : (rankOf op).level < Rank.unary.level := by
  rcases op with op | op <;> cases op <;> decide

variable {n m : NodeId}

/-- A rank holds everything that is tighter. -/
theorem Phrase.loosen {e : Expr} (h : Phrase t ts n e m) (hle : r.level ≤ t.level) :
    Phrase r ts n e m := by
  obtain ⟨d, hd⟩ := Nat.exists_eq_add_of_le hle
  induction d generalizing r with
  | zero => exact Rank.eq_of_level_eq (t := r) hd ▸ h
  | succ d ih =>
    obtain ⟨u, hu⟩ := Rank.tighter_of_level_lt (r := r) (t := t) (by omega)
    have hlevel := Rank.level_of_tighter hu
    exact .climb hu (ih (by omega) (by omega))

/-! ## Where phrases stand -/

theorem Phrase.ne_nil {r : Rank} {ts : Tokens} {n m : NodeId} {e : Expr} :
    Phrase r ts n e m → ts ≠ []
  | .assign _ => cons_ne_nil _ _
  | .set _ _ => by simp
  | .join _ _ _ => by simp
  | .unary _ => cons_ne_nil _ _
  | .call _ _ => by simp
  | .get _ => by simp
  | .literal => cons_ne_nil _ _
  | .this => cons_ne_nil _ _
  | .super => cons_ne_nil _ _
  | .var => cons_ne_nil _ _
  | .grouping _ => cons_ne_nil _ _
  | .climb _ h => h.ne_nil

/-- An expression without an operator between two operands covers its tokens. -/
theorem Phrase.span_eq {r : Rank} {ts : Tokens} {n m : NodeId} {e : Expr} :
    Phrase r ts n e m → Rank.unary.level ≤ r.level → e.span = extent ts
  | .assign _, h => absurd h (by decide)
  | .set _ _, h => absurd h (by decide)
  | .join _ _ _, h => absurd h (Nat.not_le.2 (level_rankOf_lt _))
  | .unary h, _ => by
    rw [extent, startOf_cons, ← singleton_append, stopOf_append _ h.ne_nil]
    rfl
  | .call h _, _ => by simp [Expr.span, extent, startOf_append _ h.ne_nil]
  | .get h, _ => by simp [Expr.span, extent, startOf_append _ h.ne_nil]
  | .literal, _ => rfl
  | .this, _ => rfl
  | .super, _ => rfl
  | .var, _ => rfl
  | .grouping _, _ => by simp [Expr.span, extent]
  | .climb ht h, hle => h.span_eq (by rw [Rank.level_of_tighter ht]; omega)

theorem Phrase.start_eq {us : Tokens} {e : Expr} (h : Phrase .call us n e m) :
    e.span.start = startOf us := by
  rw [h.span_eq (by decide)]
  rfl

/-- The parts of a property. -/
theorem Phrase.of_get {rank : Rank} {us : Tokens} {n m : NodeId} {e : Expr} :
    Phrase rank us n e m → ∀ {s object name}, e = .get s object name →
      ∃ vs a, us = vs ++ [⟨.sign .dot, a⟩, ⟨.ident name.node, name.span⟩] ∧
        Phrase .call vs n object m
  | .get h, _, _, _, he => by
    cases he
    exact ⟨_, _, rfl, h⟩
  | .climb _ h, _, _, _, he => h.of_get he
  | @Phrase.join op _ _ _ _ _ _ _ _ _ _ _ _, _, _, _, he => by cases op <;> cases he

theorem FunctionDeclaration.span_eq {decl : FunctionDecl}
    (h : FunctionDeclaration ts n decl m) :
    decl.span = extent ts := by
  cases h with
  | mk _ _ => simp [FunctionDecl.span, extent, braced]

private theorem Conditional.ne_nil {s : Stmt} (h : Conditional ts n s m) : ts ≠ [] := by
  cases h <;> exact cons_ne_nil _ _

theorem Conditional.span_eq {s : Stmt} (h : Conditional ts n s m) :
    s.span = extent ts := by
  cases h with
  | plain _ _ => simp [Stmt.span, extent, braced]
  | otherwise _ _ _ => simp [Stmt.span, extent, braced]
  | chained _ _ h =>
    obtain ⟨t, us, rfl⟩ := exists_cons_of_ne_nil h.ne_nil
    simp [Stmt.span, extent, braced]

end Grammar

end Treewalk
