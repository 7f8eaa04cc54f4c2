import Treewalk.Proofs.Tree.Grammar
import Treewalk.Tree.Parser

/-!
# Every program is read

From any state that awaits an operand, the parser reads the tokens of an expression and
then holds it, and from any state that awaits a declaration it reads a declaration and
adds it to the body around it. Both are proved along the derivation, for every stack of
unfinished constructs below.

The parser does not hold an expression as a tree: its last operand is apart, and the
operators and assignments that await it are on the stack. `Ready` says that closing them
gives what closing the finished tree would give, and that is all that the next token can
ask for. A conditional without a second branch is likewise finished only by the token
after it; `Settled` says that this token finds what it would find after a finished
statement.

## Main results

* `Grammar.Phrase.read` — expressions.
* `Grammar.Declarations.read` — bodies.
* `parse_of_derives` — the parser accepts every program, with its tree.
-/

namespace Treewalk

open List

open Grammar

namespace Parser

/-! ## Reading many tokens -/

/-- The parser reads all these tokens and moves on. -/
inductive Reads : Parser → Tokens → Parser → Prop
  | nil {p} : Reads p [] p
  | cons {p q r t ts} : p.feed t = .ok q → Reads q ts r → Reads p (t :: ts) r

/-- The parser awaits the next declaration in the state `q`, or it is in `q` as soon as
it sees that no `else` follows. -/
inductive Settled : Parser → Parser → Prop
  | done {layers n} : Settled ⟨layers, .declaration, n⟩ ⟨layers, .declaration, n⟩
  | branch {layers layers' n start cond onTrue} :
      endBranch ⟨layers, .branchNext start cond onTrue, n⟩ start cond onTrue =
        .ok ⟨layers', .declaration, n⟩ →
      Settled ⟨layers, .branchNext start cond onTrue, n⟩ ⟨layers', .declaration, n⟩

private theorem Reads.append {p q r : Parser} {ts us : Tokens} (h : Reads p ts q)
    (h' : Reads q us r) :
    Reads p (ts ++ us) r := by
  induction h with
  | nil => exact h'
  | cons hfeed _ ih => exact .cons hfeed (ih h')

private theorem Reads.single {p q : Parser} {t : Located Token} (h : p.feed t = .ok q) :
    Reads p [t] q :=
  .cons h .nil

private theorem Reads.parseFrom {p q : Parser} {ts : Tokens} (h : Reads p ts q)
    {program : Program} (hfinish : q.finish = some program) (stop : Nat) :
    p.parseFrom stop ts = (.ok program, q.nextId) := by
  induction h generalizing stop with
  | nil => simp only [Parser.parseFrom, hfinish]
  | cons hfeed _ ih => simpa only [Parser.parseFrom, hfeed] using ih hfinish _

/-! ## What closing does -/

end Parser

variable {layers : List Layer} {rank : Rank} {t : Token} {ts ps : Tokens} {e e₀ : Expr}
  {m m₀ n : NodeId} {p q r : Parser} {body : List Stmt → Layer} {a : Span}
  {params : List Name} {superclass : Option Expr}

/-- An operator that binds looser than `level`, or no operator at all. -/
def Layer.Looser (level : Nat) : Layer → Prop
  | .unary .. => False
  | .binary _ op => op.level < level
  | .logical _ op => op.level < level
  | _ => True

/-- A construct that an expression stands in, and that no operator or assignment is. -/
def Layer.Delimits : Layer → Prop
  | .unary .. | .binary .. | .logical .. | .assign .. | .set .. => False
  | _ => True

/-- Nothing on top of the stack takes a phrase of this rank as its operand too early. -/
def Admits (layers : List Layer) (rank : Rank) : Prop :=
  rank.level < Rank.unary.level → ∀ layer, layers.head? = some layer →
    layer.Looser rank.level

private theorem Layer.Looser.mono {i j : Nat} (h : i ≤ j) {layer : Layer}
    (hl : layer.Looser i) :
    layer.Looser j := by
  cases layer <;> simp only [Looser] at hl ⊢ <;> omega

theorem Admits.tighter {tight : Rank} (h : Admits layers rank)
    (ht : rank.tighter = some tight) :
    Admits layers tight := by
  have hlevel := Rank.level_of_tighter ht
  intro hlt layer hlayer
  exact .mono (by omega) (h (by omega) layer hlayer)

private theorem Admits.of_tight (layers : List Layer)
    (h : Rank.unary.level ≤ rank.level) : Admits layers rank :=
  fun hlt => absurd hlt (by omega)

private theorem Admits.layer (op : Operator) (left : Expr) (layers : List Layer)
    {tight : Rank} (ht : (rankOf op).tighter = some tight) :
    Admits (op.layer left :: layers) tight := by
  intro _ layer hlayer
  obtain rfl : op.layer left = layer := Option.some.inj hlayer
  rw [Rank.level_of_tighter ht, level_rankOf]
  cases op <;> exact Nat.lt_succ_self _

private theorem closeOperators_of_looser {level : Nat}
    (h : ∀ layer, layers.head? = some layer → layer.Looser level) (e : Expr) :
    closeOperators level layers e = (layers, e) := by
  cases layers with
  | nil => rfl
  | cons layer layers =>
    have hl := h layer rfl
    cases layer with
    | unary => exact hl.elim
    | binary left op => exact if_neg (Nat.not_le.2 hl)
    | logical left op => exact if_neg (Nat.not_le.2 hl)
    | _ => rfl

private theorem Layer.Delimits.closeExpression {layer : Layer} (h : layer.Delimits)
    (stop : Nat) (layers : List Layer) (e : Expr) (n : NodeId) :
    closeExpression stop (layer :: layers) e n = (layer :: layers, e, n) := by
  cases layer with
  | unary | binary | logical | assign | set => exact h.elim
  | _ => rfl

private theorem Layer.Delimits.admits {layer : Layer} (h : layer.Delimits)
    (layers : List Layer) :
    Admits (layer :: layers) .assignment := by
  intro _ top htop
  obtain rfl : layer = top := Option.some.inj htop
  cases layer with
  | unary | binary | logical | assign | set => exact h.elim
  | _ => trivial

private theorem closeExpression_closeOperators (stop : Nat) (layers : List Layer)
    (e : Expr) (n : NodeId) :
    closeExpression stop (closeOperators 0 layers e).1 (closeOperators 0 layers e).2 n =
      closeExpression stop layers e n := by
  induction layers generalizing e with
  | nil => rfl
  | cons layer layers ih =>
    cases layer with
    | unary start op => exact ih _
    | binary left op =>
      simp only [closeOperators, Nat.zero_le, if_true, closeExpression]
      exact ih _
    | logical left op =>
      simp only [closeOperators, Nat.zero_le, if_true, closeExpression]
      exact ih _
    | _ => rfl

namespace Parser

/-! ## Operands -/

/-- The parser holds an operand: whatever can follow one finds `e`, with `m` the next
free number. -/
def Operand (p : Parser) (e : Expr) (m : NodeId) : Prop :=
  ∀ t span, t.followsOperand →
    p.feed ⟨t, span⟩ = feedComplete ⟨p.layers, .complete e, m⟩ e t span

private theorem operand_complete (layers : List Layer) (e : Expr) (m : NodeId) :
    Operand ⟨layers, .complete e, m⟩ e m :=
  fun _ _ _ => rfl

private theorem feed_ident (h : t ≠ .sign .eq) (layers : List Layer) (a span : Span)
    (x : String) (n : NodeId) :
    feed ⟨layers, .ident a x, n⟩ ⟨t, span⟩ = feedNumbered ⟨layers, .ident a x, n⟩
      (.var a n x) t span := by
  cases t with
  | sign s => cases s <;> first | rfl | exact absurd rfl h
  | _ => rfl

private theorem operand_ident (layers : List Layer) (a : Span) (x : String)
    (n : NodeId) :
    Operand ⟨layers, .ident a x, n⟩ (.var a n x) (n + 1) := by
  intro t span ht
  have hne : t ≠ .sign .eq := by
    rintro rfl
    cases ht
  rw [feed_ident hne, feedNumbered, if_pos ht]

theorem operand_called (layers : List Layer) (a : Span) (callee : Expr)
    (args : List Expr) (n : NodeId) :
    Operand ⟨layers, .called a callee args, n⟩ (.call a n callee args) (n + 1) := by
  intro t span ht
  exact if_pos ht

/-- After the tokens `ts` of the expression `e`, read above `layers`, the parser holds
the operand `e₀`. -/
structure Ready (rank : Rank) (layers : List Layer) (ts : Tokens) (e : Expr)
    (m : NodeId) (p : Parser) (e₀ : Expr) (m₀ : NodeId) : Prop where
  operand : Operand p e₀ m₀
  stop : e₀.span.stop = stopOf ts
  /-- The end of the expression gives the tree. -/
  ends : closeExpression (stopOf ts) p.layers e₀ m₀ =
    closeExpression (stopOf ts) layers e m
  /-- So does an operator, if the expression is no assignment. -/
  joins : 0 < rank.level → m₀ = m ∧
    ∀ level, level ≤ rank.level → closeOperators level p.layers e₀ =
      closeOperators level layers e
  /-- A call, a property or a single word is the operand itself. -/
  whole : Rank.unary.level < rank.level → p.layers = layers ∧ e₀ = e

private theorem Ready.of_whole (h : Operand p e m) (hstop : e.span.stop = stopOf ts) :
    Ready rank p.layers ts e m p e m :=
  ⟨h, hstop, rfl, fun _ => ⟨rfl, fun _ _ => rfl⟩, fun _ => ⟨rfl, rfl⟩⟩

theorem Ready.of_joins (h : Operand p e₀ m) (hstop : e₀.span.stop = stopOf ts)
    (hle : rank.level ≤ Rank.unary.level)
    (hjoins : ∀ level, level ≤ rank.level → closeOperators level p.layers e₀ =
      closeOperators level layers e) :
    Ready rank layers ts e m p e₀ m := by
  refine ⟨h, hstop, ?_, fun _ => ⟨rfl, hjoins⟩, fun hlt => absurd hlt (by omega)⟩
  rw [← closeExpression_closeOperators, hjoins 0 (Nat.zero_le _),
    closeExpression_closeOperators]

theorem Ready.climb {tight : Rank} (h : Ready tight layers ts e m p e₀ m₀)
    (ht : rank.tighter = some tight) :
    Ready rank layers ts e m p e₀ m₀ := by
  have hlevel := Rank.level_of_tighter ht
  refine ⟨h.operand, h.stop, h.ends, fun _ => ?_, fun hlt => h.whole (by omega)⟩
  obtain ⟨hm, hjoins⟩ := h.joins (by omega)
  exact ⟨hm, fun level hle => hjoins level (by omega)⟩

private theorem feedComplete_operator (p : Parser) (e : Expr) (op : Operator)
    (span : Span) :
    p.feedComplete e op.token span =
      .ok ⟨op.layer (closeOperators op.level p.layers e).2 ::
        (closeOperators op.level p.layers e).1, .operand, p.nextId⟩ := by
  rcases op with op | op <;> cases op <;> rfl

private theorem followsOperand_token (op : Operator) :
    op.token.followsOperand = true := by
  rcases op with op | op <;> cases op <;> rfl

/-- An operator after an expression of its own rank takes it as its left operand. -/
private theorem Ready.feed_operator {op : Operator}
    (h : Ready (rankOf op) layers ts e m p e₀ m₀) (hadmits : Admits layers (rankOf op))
    (a : Span) :
    p.feed ⟨op.token, a⟩ = .ok ⟨op.layer e :: layers, .operand, m⟩ := by
  have hlevel := level_rankOf op
  have hpos : 0 < (rankOf op).level := by
    rcases op with op | op <;> cases op <;> decide
  obtain ⟨rfl, hjoins⟩ := h.joins hpos
  have hclosed := hjoins op.level (by omega)
  have hadmits := hadmits (level_rankOf_lt op)
  rw [hlevel] at hadmits
  rw [closeOperators_of_looser hadmits e] at hclosed
  rw [h.operand _ _ (followsOperand_token op), feedComplete_operator]
  simp only [hclosed]

private theorem feedComplete_end (ht : t.endsExpression = true) (p : Parser) (e : Expr)
    (span : Span) :
    p.feedComplete e t span =
      feedEnd ⟨(closeExpression e.span.stop p.layers e p.nextId).1, p.focus,
        (closeExpression e.span.stop p.layers e p.nextId).2.2⟩
        (closeExpression e.span.stop p.layers e p.nextId).2.1 t span := by
  cases t with
  | sign s => cases s <;> first | rfl | cases ht
  | _ => cases ht

private theorem followsOperand_of_endsExpression (ht : t.endsExpression = true) :
    t.followsOperand = true := by
  cases t with
  | sign s => cases s <;> first | rfl | cases ht
  | _ => cases ht

/-- A token that ends an expression finds the tree and the construct that it stands
in. -/
private theorem Ready.feed_end {layer : Layer}
    (h : Ready rank (layer :: layers) ts e m p e₀ m₀) (hlayer : layer.Delimits)
    (ht : t.endsExpression = true) (a : Span) :
    p.feed ⟨t, a⟩ = feedEnd ⟨layer :: layers, .complete e₀, m⟩ e t a := by
  have hends := h.ends
  rw [hlayer.closeExpression] at hends
  rw [h.operand _ _ (followsOperand_of_endsExpression ht), feedComplete_end ht]
  simp only [h.stop, hends]

end Parser

/-! ## Expressions -/

namespace Grammar

open Treewalk.Parser

private theorem inOperator_of_admits (h : Admits layers .assignment) (focus : Focus)
    (n : NodeId) :
    inOperator ⟨layers, focus, n⟩ = false := by
  cases layers with
  | nil => rfl
  | cons layer layers =>
    have hl := h (by decide) layer rfl
    cases layer with
    | unary => exact hl.elim
    | binary left op => exact absurd hl (Nat.not_lt_zero _)
    | logical left op => exact absurd hl (Nat.not_lt_zero _)
    | _ => rfl

private theorem feedOperand_literal (layers : List Layer) (v : Literal) (a : Span)
    (n : NodeId) :
    feedOperand ⟨layers, .operand, n⟩ v.token a =
      .ok ⟨layers, .complete (.literal a v), n⟩ := by
  rcases v with v | v | b | _
  · rfl
  · rfl
  · cases b <;> rfl
  · rfl

/-- The parser reads the expression from any state that awaits an operand of its
rank. -/
def Readable (rank : Rank) (ts : Tokens) (n : NodeId) (e : Expr) (m : NodeId) : Prop :=
  ∀ layers, Admits layers rank →
    ∃ p e₀ m₀, Reads ⟨layers, .operand, n⟩ ts p ∧ Ready rank layers ts e m p e₀ m₀

namespace Readable

variable {rank tight : Rank} {ts us : Tokens} {n m k : NodeId}
  {e object callee left right v : Expr} {args : List Expr} {x : String} {a b c : Span}

private theorem of_operand (hstop : e.span.stop = stopOf ts)
    (h : ∀ layers, ∃ p, Reads ⟨layers, .operand, n⟩ ts p ∧ p.layers = layers ∧
      Operand p e m) :
    Readable rank ts n e m := by
  intro layers _
  obtain ⟨p, hreads, rfl, hoperand⟩ := h layers
  exact ⟨p, e, m, hreads, .of_whole hoperand hstop⟩

private theorem operand (h : Readable .call ts n e m) (layers : List Layer) :
    ∃ p, Reads ⟨layers, .operand, n⟩ ts p ∧ p.layers = layers ∧ Operand p e m := by
  obtain ⟨p, e₀, m₀, hreads, hready⟩ := h layers (.of_tight layers (by decide))
  obtain ⟨hlayers, rfl⟩ := hready.whole (by decide)
  obtain ⟨rfl, _⟩ := hready.joins (by decide)
  exact ⟨p, hreads, hlayers, hready.operand⟩

private theorem assign (h : Readable .assignment ts n v m) (hne : ts ≠ []) :
    Readable .assignment (⟨.ident x, a⟩ :: ⟨.sign .eq, b⟩ :: ts) n
      (.assign ⟨a.start, stopOf ts⟩ m x v) (m + 1) := by
  intro layers hadmits
  obtain ⟨p, e₀, m₀, hreads, hready⟩ := h (.assign a.start x :: layers) fun _ _ hl => by
    cases hl
    trivial
  have hin := inOperator_of_admits hadmits (.ident a x) n
  have hstop : stopOf (⟨.ident x, a⟩ :: ⟨.sign .eq, b⟩ :: ts) = stopOf ts :=
    stopOf_append [_, _] hne
  refine ⟨p, e₀, m₀, .cons rfl (.cons ?_ hreads), hready.operand, ?_, ?_, ?_, ?_⟩
  · exact if_neg (by rw [hin]; decide)
  · rw [hstop]
    exact hready.stop
  · rw [hstop]
    exact hready.ends
  · exact fun hlt => absurd hlt (by decide)
  · exact fun hlt => absurd hlt (by decide)

theorem set (h : Readable .call ts n object m) (hstart : object.span.start = startOf ts)
    (hv : Readable .assignment us m v k) (hne : us ≠ []) :
    Readable .assignment
      (ts ++ ⟨.sign .dot, a⟩ :: ⟨.ident x, b⟩ :: ⟨.sign .eq, c⟩ :: us) n
      (.set ⟨startOf ts, stopOf us⟩ object ⟨x, b⟩ v) k := by
  intro layers hadmits
  obtain ⟨p, hreads, rfl, hoperand⟩ := h.operand layers
  obtain ⟨q, e₀, m₀, hreads', hready⟩ :=
    hv (.set object ⟨x, b⟩ :: p.layers) fun _ _ hl => by
    cases hl
    trivial
  have hin := inOperator_of_admits hadmits
    (.complete (.get ⟨object.span.start, b.stop⟩ object ⟨x, b⟩)) m
  have hstop : stopOf (ts ++ ⟨.sign .dot, a⟩ :: ⟨.ident x, b⟩ :: ⟨.sign .eq, c⟩ :: us) =
      stopOf us := by
    rw [stopOf_append_cons]
    exact stopOf_append [_, _, _] hne
  have hdot : p.feed ⟨.sign .dot, a⟩ = .ok ⟨p.layers, .propertyName object, m⟩ :=
    hoperand _ _ rfl
  have heq :
    feed ⟨p.layers, .complete (.get ⟨object.span.start, b.stop⟩ object ⟨x, b⟩), m⟩
      ⟨.sign .eq, c⟩ = .ok ⟨.set object ⟨x, b⟩ :: p.layers, .operand, m⟩ :=
    if_neg (by rw [hin]; decide)
  refine ⟨q, e₀, m₀, hreads.append (.cons hdot (.cons rfl (.cons heq hreads'))),
    hready.operand, ?_, ?_, ?_, ?_⟩
  · rw [hstop]
    exact hready.stop
  · rw [hstop, ← hstart]
    exact hready.ends
  · exact fun hlt => absurd hlt (by decide)
  · exact fun hlt => absurd hlt (by decide)

private theorem join {op : Operator} (ht : (rankOf op).tighter = some tight)
    (hl : Readable (rankOf op) ts n left m) (hr : Readable tight us m right k)
    (hne : us ≠ []) :
    Readable (rankOf op) (ts ++ ⟨op.token, a⟩ :: us) n (op.join left right) k := by
  intro layers hadmits
  obtain ⟨p, l₀, m₀, hreads, hleft⟩ := hl layers hadmits
  obtain ⟨q, e₀, k₀, hreads', hright⟩ :=
    hr (op.layer left :: layers) (.layer op left layers ht)
  have htight := Rank.level_of_tighter ht
  have hlevel := level_rankOf op
  have hop := hleft.feed_operator hadmits a
  have hstop : stopOf (ts ++ ⟨op.token, a⟩ :: us) = stopOf us := by
    rw [stopOf_append_cons]
    exact stopOf_append [_] hne
  obtain ⟨rfl, hjoins⟩ := hright.joins (by omega)
  refine ⟨q, e₀, k₀, hreads.append (.cons hop hreads'),
    .of_joins hright.operand (by rw [hstop, hright.stop])
      (Nat.le_of_lt (level_rankOf_lt op)) ?_⟩
  intro level hle
  rw [hjoins level (by omega), closeOperators_layer (by omega)]

private theorem unary {op : UnaryOp} (h : Readable .unary ts n e m)
    (hstop : e.span.stop = stopOf ts) (hne : ts ≠ []) :
    Readable .unary (⟨.sign op.sign, a⟩ :: ts) n
      (.unary ⟨a.start, stopOf ts⟩ op e) m := by
  intro layers _
  obtain ⟨p, e₀, m₀, hreads, hready⟩ :=
    h (.unary a.start op :: layers) (.of_tight _ (Nat.le_refl _))
  have hop : feed ⟨layers, .operand, n⟩ ⟨.sign op.sign, a⟩ =
      .ok ⟨.unary a.start op :: layers, .operand, n⟩ := by
    cases op <;> rfl
  obtain ⟨rfl, hjoins⟩ := hready.joins (by decide)
  refine ⟨p, e₀, m₀, .cons hop hreads, .of_joins hready.operand ?_ (Nat.le_refl _) ?_⟩
  · rw [hready.stop, ← stopOf_append [_] hne]
    rfl
  · intro level hle
    rw [hjoins level hle, ← hstop]
    rfl

theorem call (h : Readable .call ts n callee m)
    (hstart : callee.span.start = startOf ts)
    (hargs : ∀ layers, Reads ⟨.arguments callee [] :: layers, .operand, m⟩
      (us ++ [⟨.sign .rparen, b⟩])
      ⟨layers, .called ⟨callee.span.start, b.stop⟩ callee args, k⟩) :
    Readable .call (ts ++ ⟨.sign .lparen, a⟩ :: (us ++ [⟨.sign .rparen, b⟩])) n
      (.call ⟨startOf ts, b.stop⟩ k callee args) (k + 1) := by
  refine of_operand (by simp [Expr.span]) fun layers => ?_
  obtain ⟨p, hreads, rfl, hoperand⟩ := h.operand layers
  have hopen : p.feed ⟨.sign .lparen, a⟩ =
      .ok ⟨.arguments callee [] :: p.layers, .operand, m⟩ :=
    hoperand _ _ rfl
  rw [hstart] at hargs
  exact ⟨_, hreads.append (.cons hopen (hargs p.layers)), rfl, operand_called _ _ _ _ _⟩

private theorem get (h : Readable .call ts n object m)
    (hstart : object.span.start = startOf ts) :
    Readable .call (ts ++ [⟨.sign .dot, a⟩, ⟨.ident x, b⟩]) n
      (.get ⟨startOf ts, b.stop⟩ object ⟨x, b⟩) m := by
  refine of_operand (by simp [Expr.span]) fun layers => ?_
  obtain ⟨p, hreads, rfl, hoperand⟩ := h.operand layers
  have hdot : p.feed ⟨.sign .dot, a⟩ = .ok ⟨p.layers, .propertyName object, m⟩ :=
    hoperand _ _ rfl
  rw [← hstart]
  exact ⟨_, hreads.append (.cons hdot (.single rfl)), rfl, operand_complete _ _ _⟩

private theorem ended {layer : Layer} (h : Readable .assignment ts n e m)
    (hlayer : layer.Delimits) (ht : t.endsExpression = true)
    (hq : ∀ focus, feedEnd ⟨layer :: layers, focus, m⟩ e t a = .ok q) :
    Reads ⟨layer :: layers, .operand, n⟩ (ts ++ [⟨t, a⟩]) q := by
  obtain ⟨p, e₀, m₀, hreads, hready⟩ := h (layer :: layers) (hlayer.admits layers)
  refine hreads.append (.single ?_)
  rw [hready.feed_end hlayer ht]
  exact hq _

private theorem grouping (h : Readable .assignment ts n e m) :
    Readable .primary (⟨.sign .lparen, a⟩ :: (ts ++ [⟨.sign .rparen, b⟩])) n
      (.grouping ⟨a.start, b.stop⟩ e) m := by
  refine of_operand (by simp [Expr.span]) fun layers => ?_
  exact ⟨_, .cons rfl (h.ended trivial rfl fun _ => rfl), rfl, operand_complete _ _ _⟩

private theorem argument (h : Readable .assignment us m e k) (callee : Expr)
    (done : List Expr) (layers : List Layer) :
    Reads ⟨.arguments callee done :: layers, .operand, m⟩ (us ++ [⟨.sign .comma, a⟩])
      ⟨.arguments callee (e :: done) :: layers, .operand, k⟩ :=
  h.ended trivial rfl fun _ => rfl

private theorem lastArgument (h : Readable .assignment us m e k) (callee : Expr)
    (done : List Expr) (layers : List Layer) :
    Reads ⟨.arguments callee done :: layers, .operand, m⟩ (us ++ [⟨.sign .rparen, b⟩])
      ⟨layers, .called ⟨callee.span.start, b.stop⟩ callee (done.reverse ++ [e]), k⟩ :=
  h.ended trivial rfl fun _ => rfl

private theorem feed_closeCall (callee : Expr) (args : List Expr)
    (layers : List Layer) :
    feed ⟨.arguments callee args.reverse :: layers, .operand, m⟩ ⟨.sign .rparen, b⟩ =
      .ok ⟨layers, .called ⟨callee.span.start, b.stop⟩ callee args, m⟩ := by
  show closeCall _ layers callee args.reverse.reverse b.stop = _
  rw [reverse_reverse]
  rfl

private theorem climb (ht : rank.tighter = some tight) (h : Readable tight ts n e m) :
    Readable rank ts n e m := by
  intro layers hadmits
  obtain ⟨p, e₀, m₀, hreads, hready⟩ := h layers (hadmits.tighter ht)
  exact ⟨p, e₀, m₀, hreads, hready.climb ht⟩

end Readable

mutual

/-- The parser reads every expression. -/
theorem Phrase.read {rank : Rank} {ts : Tokens} {n m : NodeId} {e : Expr} :
    Phrase rank ts n e m → Readable rank ts n e m
  | .assign h => h.read.assign h.ne_nil
  | .set h hv => h.read.set h.start_eq hv.read hv.ne_nil
  | .join ht hl hr => .join ht hl.read hr.read hr.ne_nil
  | .unary h => h.read.unary (by rw [h.span_eq (by decide)]; rfl) h.ne_nil
  | .call h (.closed hargs) => by
    refine h.read.call h.start_eq fun layers => ?_
    exact (hargs.read _ layers).append (.single (Readable.feed_closeCall _ _ layers))
  | .call h (.last hargs hlast) => by
    refine h.read.call h.start_eq fun layers => ?_
    rw [append_assoc]
    refine (hargs.read _ layers).append ?_
    simpa only [reverse_reverse] using hlast.read.lastArgument _ (List.reverse _) layers
  | .get h => h.read.get h.start_eq
  | .literal => .of_operand rfl fun layers =>
    ⟨_, .single (feedOperand_literal layers _ _ _), rfl, operand_complete _ _ _⟩
  | .this => .of_operand rfl fun layers => ⟨_, .single rfl, rfl, operand_complete _ _ _⟩
  | .super => .of_operand rfl fun layers =>
    ⟨_, .cons rfl (.cons rfl (.single rfl)), rfl, operand_complete _ _ _⟩
  | .var => .of_operand rfl fun layers => ⟨_, .single rfl, rfl, operand_ident _ _ _ _⟩
  | .grouping h => h.read.grouping
  | .climb ht h => h.read.climb ht

/-- The parser reads the arguments of a call that are followed by a comma. -/
private theorem Commaed.read {ts : Tokens} {n m : NodeId} {args : List Expr} :
    Commaed (Phrase .assignment) ts n args m → ∀ callee layers,
      Reads ⟨.arguments callee [] :: layers, .operand, n⟩ ts
        ⟨.arguments callee args.reverse :: layers, .operand, m⟩
  | .nil, _, _ => .nil
  | .more hargs harg, callee, layers => by
    rw [reverse_append]
    exact (hargs.read callee layers).append (harg.read.argument callee _ layers)

end

end Grammar

/-! ## Finished statements -/

namespace Parser

/-- A body that is being read. -/
def Collects (body : List Stmt → Layer) : Prop :=
  ∀ done s, (body done).addStmt s = some (body (s :: done))

private theorem Collects.finishStmt (h : Collects body) (p : Parser) (done : List Stmt)
    (layers : List Layer) (s : Stmt) :
    p.finishStmt (body done :: layers) s =
      .ok ⟨body (s :: done) :: layers, .declaration, p.nextId⟩ := by
  simp only [Parser.finishStmt, h done s]
  rfl

theorem Collects.finishBranch (h : Collects body) (p : Parser) (done : List Stmt)
    (layers : List Layer) (s : Stmt) :
    p.finishBranch (body done :: layers) s =
      .ok ⟨body (s :: done) :: layers, .declaration, p.nextId⟩ := by
  rw [← h.finishStmt]
  have hadd := h done s
  unfold Parser.finishBranch
  split
  · next heq =>
    rw [(List.cons.inj heq).1] at hadd
    cases hadd
  · rfl

theorem Collects.finishFunction (h : Collects body) (p : Parser) (done : List Stmt)
    (layers : List Layer) (decl : FunctionDecl) :
    p.finishFunction (body done :: layers) decl =
      .ok ⟨body (.funcDecl decl.span decl :: done) :: layers, .declaration,
        p.nextId⟩ := by
  rw [← h.finishStmt]
  have hadd := h done (.funcDecl decl.span decl)
  unfold Parser.finishFunction
  split
  · next heq =>
    rw [(List.cons.inj heq).1] at hadd
    cases hadd
  · rfl

private theorem feed_branchNext (h : t ≠ .word .els) (layers : List Layer) (start : Nat)
    (cond : Expr) (onTrue : Stmt) (n : NodeId) (span : Span) :
    feed ⟨layers, .branchNext start cond onTrue, n⟩ ⟨t, span⟩ =
      match endBranch ⟨layers, .branchNext start cond onTrue, n⟩ start cond onTrue with
      | .ok q => q.feedDeclaration t span
      | .error next => .error next := by
  cases t with
  | word k => cases k <;> first | rfl | exact absurd rfl h
  | _ => rfl

private theorem Settled.feed {t : Located Token} (h : Settled p q)
    (ht : q.feed t = .ok r) : p.feed t = .ok r := by
  cases h with
  | done => exact ht
  | branch hend =>
    have hne : t.node ≠ .word .els := by
      intro heq
      simp only [Parser.feed, heq] at ht
      cases ht
    rw [feed_branchNext hne, hend]
    exact ht

private theorem Settled.trans {q' : Parser} (h : Settled p q) (hreads : Reads q ts q')
    (h' : Settled q' r) :
    ∃ p', Reads p ts p' ∧ Settled p' r := by
  cases hreads with
  | cons hfeed hreads => exact ⟨q', .cons (h.feed hfeed) hreads, h'⟩
  | nil =>
    cases h' with
    | done => exact ⟨p, .nil, h⟩
    | branch => nomatch h

private theorem Settled.single {s : Parser} {t : Located Token} (h : Settled q r)
    (hreads : Reads p ts q) (ht : r.feed t = .ok s) : Reads p (ts ++ [t]) s :=
  hreads.append (.single (h.feed ht))

private theorem Settled.finish (h : Settled p q) : p.finish = q.finish := by
  cases h with
  | done => rfl
  | branch hend =>
    unfold Parser.finish
    simp only [hend, Except.toOption]

private theorem Settled.nextId (h : Settled p q) : p.nextId = q.nextId := by
  cases h <;> rfl

end Parser

/-! ## Statements -/

namespace Grammar

open Treewalk.Parser

private theorem feedDeclaration_of_feedOperand
    (h : feedOperand ⟨.statement a.start :: layers, .operand, n⟩ t a = .ok q) :
    feedDeclaration ⟨layers, .declaration, n⟩ t a = .ok q := by
  cases t with
  | word k => cases k <;> first | exact h | cases h
  | sign s => cases s <;> first | exact h | cases h
  | _ => exact h

/-- What is read as an operand of a statement is read as a statement. -/
private theorem reads_statement
    (h : Reads ⟨.statement (startOf ts) :: layers, .operand, n⟩ ts q) (hne : ts ≠ []) :
    Reads ⟨layers, .declaration, n⟩ ts q := by
  cases h with
  | nil => exact absurd rfl hne
  | cons hfeed hreads => exact .cons (feedDeclaration_of_feedOperand hfeed) hreads

private theorem Commaed.reads_params (h : Commaed Named ps n params m)
    (layers : List Layer) (start : Nat) (name : Name) :
    Reads ⟨layers, .param start name [], n⟩ ps
      ⟨layers, .param start name params.reverse, m⟩ := by
  induction h with
  | nil => exact .nil
  | more _ hparam ih =>
    cases hparam with
    | mk =>
      rw [reverse_append]
      exact ih.append (.cons rfl (.single rfl))

private theorem Comma.reads_params {d : Span} (h : Comma Named ps n params m)
    (layers : List Layer) (start : Nat) (name : Name) :
    Reads ⟨layers, .param start name [], n⟩ (ps ++ [⟨.sign .rparen, d⟩])
      ⟨layers, .funcEq start name params, m⟩ := by
  cases h with
  | closed hparams =>
    have hclose : feed ⟨layers, .param start name params.reverse, m⟩
      ⟨.sign .rparen, d⟩ =
        .ok ⟨layers, .funcEq start name params.reverse.reverse, m⟩ := rfl
    rw [reverse_reverse] at hclose
    exact (hparams.reads_params layers start name).append (.single hclose)
  | @last _ _ _ _ _ xs _ hparams hparam =>
    cases hparam with
    | @mk _ x a =>
      have hclose : feed ⟨layers, .paramNext start name (⟨x, a⟩ :: xs.reverse), m⟩
          ⟨.sign .rparen, d⟩ =
          .ok ⟨layers, .funcEq start name (⟨x, a⟩ :: xs.reverse).reverse, m⟩ := rfl
      rw [reverse_cons, reverse_reverse] at hclose
      rw [append_assoc]
      exact (hparams.reads_params layers start name).append (.cons rfl (.single hclose))

private theorem Superclass.reads {ss : Tokens} {c : Span}
    (h : Superclass ss n superclass m) (layers : List Layer) (start : Nat)
    (name : Name) :
    Reads ⟨layers, .classNext start name, n⟩ (ss ++ [⟨.sign .eq, c⟩])
      ⟨layers, .classBrace start name superclass, m⟩ := by
  cases h with
  | none => exact .single rfl
  | some => exact .cons rfl (.cons rfl (.single rfl))

/-- The parser adds the declarations to any body that is being read. -/
def BodyReadable (ts : Tokens) (n : NodeId) (ss : List Stmt) (m : NodeId) : Prop :=
  ∀ body, Collects body → ∀ done layers, ∃ p,
    Reads ⟨body done :: layers, .declaration, n⟩ ts p ∧
    Settled p ⟨body (ss.reverse ++ done) :: layers, .declaration, m⟩

/-- The parser reads the function, wherever it awaits one. -/
def FunctionReadable (ts : Tokens) (n : NodeId) (decl : FunctionDecl) (m : NodeId) :
    Prop :=
  ∃ a us, ts = ⟨.word .func, a⟩ :: us ∧ ∀ layers q,
    (∀ p : Parser, p.nextId = m → p.finishFunction layers decl = .ok q) →
    Reads ⟨layers, .funcName a.start, n⟩ us q

/-- The parser reads the conditional, wherever it awaits one. -/
def BranchReadable (ts : Tokens) (n : NodeId) (s : Stmt) (m : NodeId) : Prop :=
  ∃ a us, ts = ⟨.word .ifs, a⟩ :: us ∧ ∀ layers layers',
    (∀ p : Parser, p.nextId = m →
      p.finishBranch layers s = .ok ⟨layers', .declaration, m⟩) →
    ∃ p, Reads ⟨layers, .branchOpen a.start, n⟩ us p ∧
      Settled p ⟨layers', .declaration, m⟩

namespace BodyReadable

variable {ts us vs ms ss ps : Tokens} {n m k l : NodeId} {body other stmts : List Stmt}
  {s : Stmt} {cond : Expr} {a b c d e f g h : Span} {x : String}

private theorem closed (hbody : BodyReadable ts n stmts m) {collect : List Stmt → Layer}
    (hcollect : Collects collect)
    (hq : closeBody ⟨collect stmts.reverse :: layers, .declaration, m⟩ b.stop = .ok q) :
    Reads ⟨collect [] :: layers, .declaration, n⟩ (ts ++ [⟨.sign .rbrace, b⟩]) q := by
  obtain ⟨p, hreads, hsettled⟩ := hbody collect hcollect [] layers
  rw [append_nil] at hsettled
  exact hsettled.single hreads hq

private theorem append (hbody : BodyReadable ts n stmts m)
    (hs : BodyReadable us m [s] k) :
    BodyReadable (ts ++ us) n (stmts ++ [s]) k := by
  intro collect hcollect done layers
  obtain ⟨p, hreads, hsettled⟩ := hbody collect hcollect done layers
  obtain ⟨q, hreads', hsettled'⟩ := hs collect hcollect (stmts.reverse ++ done) layers
  obtain ⟨r, hreads'', hsettled''⟩ := hsettled.trans hreads' hsettled'
  refine ⟨r, hreads.append hreads'', ?_⟩
  simpa using hsettled''

private theorem of_finishStmt
    (h : ∀ layers q, (∀ p : Parser, p.nextId = m → p.finishStmt layers s = .ok q) →
      Reads ⟨layers, .declaration, n⟩ ts q) : BodyReadable ts n [s] m := by
  intro collect hcollect done layers
  refine ⟨_, h (collect done :: layers) _ fun p hp => ?_, .done⟩
  rw [hcollect.finishStmt, hp]
  rfl

private theorem of_function {decl : FunctionDecl}
    (hdecl : FunctionReadable ts n decl m) :
    BodyReadable ts n [.funcDecl decl.span decl] m := by
  intro collect hcollect done layers
  obtain ⟨a, us, rfl, h⟩ := hdecl
  refine ⟨_, .cons rfl (h (collect done :: layers) _ fun p hp => ?_), .done⟩
  rw [hcollect.finishFunction, hp]
  rfl

private theorem of_branch (hs : BranchReadable ts n s m) : BodyReadable ts n [s] m := by
  intro collect hcollect done layers
  obtain ⟨a, us, rfl, h⟩ := hs
  obtain ⟨p, hreads, hsettled⟩ :=
    h (collect done :: layers) (collect (s :: done) :: layers) fun p hp => by
    rw [hcollect.finishBranch, hp]
  exact ⟨p, .cons rfl hreads, hsettled⟩

private theorem reads_then (hcond : Readable .assignment ts n cond m)
    (hbody : BodyReadable us m body k) (layers : List Layer) (start : Nat) :
    Reads ⟨layers, .branchOpen start, n⟩
      (⟨.sign .lparen, b⟩ :: (ts ++ ⟨.sign .rparen, c⟩ :: braced d us e))
      ⟨layers, .branchNext start cond (.block ⟨d.start, e.stop⟩ body), k⟩ := by
  have hreads : Reads ⟨.branchCond start :: layers, .operand, n⟩
    (ts ++ [⟨.sign .rparen, c⟩])
      ⟨layers, .branchBrace start cond, m⟩ := hcond.ended trivial rfl fun _ => rfl
  have hclosed : Reads ⟨.thenBody start cond d.start [] :: layers, .declaration, m⟩
      (us ++ [⟨.sign .rbrace, e⟩])
      ⟨layers, .branchNext start cond (.block ⟨d.start, e.stop⟩ body), k⟩ := by
    refine hbody.closed (fun _ _ => rfl) ?_
    simp only [closeBody, reverse_reverse]
    rfl
  refine .cons rfl ?_
  rw [append_cons]
  exact hreads.append (.cons rfl hclosed)

theorem loop (hcond : Readable .assignment ts n cond m)
    (hbody : BodyReadable us m body k) :
    BodyReadable
      (⟨.word .whiles, a⟩ :: ⟨.sign .lparen, b⟩ ::
        (ts ++ ⟨.sign .rparen, c⟩ :: braced d us e)) n
      [.loop ⟨a.start, e.stop⟩ cond (.block ⟨d.start, e.stop⟩ body)] k := by
  refine of_finishStmt fun layers q hq => .cons rfl (.cons rfl ?_)
  have hreads : Reads ⟨.loopCond a.start :: layers, .operand, n⟩
    (ts ++ [⟨.sign .rparen, c⟩])
      ⟨layers, .loopBrace a.start cond, m⟩ := hcond.ended trivial rfl fun _ => rfl
  have hclosed : Reads ⟨.loopBody a.start cond d.start [] :: layers, .declaration, m⟩
      (us ++ [⟨.sign .rbrace, e⟩]) q := by
    refine hbody.closed (fun _ _ => rfl) ?_
    simp only [closeBody, reverse_reverse]
    exact hq _ rfl
  rw [append_cons]
  exact hreads.append (.cons rfl hclosed)

theorem block (hbody : BodyReadable ts n body m) :
    BodyReadable (braced a ts b) n [.block ⟨a.start, b.stop⟩ body] m := by
  refine of_finishStmt fun layers q hq => .cons rfl (hbody.closed (fun _ _ => rfl) ?_)
  simp only [closeBody, reverse_reverse]
  exact hq _ rfl

private theorem cls {methods : List FunctionDecl} (hss : Superclass ss n superclass m)
    (hms : ∀ layers, Reads ⟨.classBody a.start ⟨x, b⟩ superclass [] :: layers, .member,
      m⟩ ms ⟨.classBody a.start ⟨x, b⟩ superclass methods.reverse :: layers,
      .member, k⟩) :
    BodyReadable
      (⟨.word .cls, a⟩ :: ⟨.ident x, b⟩ :: (ss ++ ⟨.sign .eq, c⟩ :: braced d ms e)) n
      [.classDecl ⟨a.start, e.stop⟩ (.mk ⟨x, b⟩ superclass methods ⟨a.start, e.stop⟩)]
        k := by
  refine of_finishStmt fun layers q hq => .cons rfl (.cons rfl ?_)
  have hclose : feed ⟨.classBody a.start ⟨x, b⟩ superclass methods.reverse :: layers,
    .member, k⟩
      ⟨.sign .rbrace, e⟩ = .ok q := by
    simp only [feed, closeBody, reverse_reverse]
    exact hq _ rfl
  rw [append_cons]
  exact (hss.reads layers a.start ⟨x, b⟩).append
    (.cons rfl ((hms layers).append (.single hclose)))

end BodyReadable

namespace BranchReadable

variable {ts us vs : Tokens} {n m k l : NodeId} {body other : List Stmt} {s : Stmt}
  {cond : Expr} {a b c d e f g h : Span}

variable (hcond : Readable .assignment ts n cond m)

include hcond

variable (hbody : BodyReadable us m body k)

include hbody

private theorem plain :
    BranchReadable
      (⟨.word .ifs, a⟩ :: ⟨.sign .lparen, b⟩ ::
        (ts ++ ⟨.sign .rparen, c⟩ :: braced d us e)) n
      (.branch ⟨a.start, e.stop⟩ cond (.block ⟨d.start, e.stop⟩ body) none) k := by
  refine ⟨a, _, rfl, fun layers layers' hq => ?_⟩
  exact ⟨_, hbody.reads_then hcond layers a.start, .branch (hq _ rfl)⟩

theorem otherwise (hother : BodyReadable vs k other l) :
    BranchReadable
      (⟨.word .ifs, a⟩ :: ⟨.sign .lparen, b⟩ :: (ts ++ ⟨.sign .rparen, c⟩ ::
        (braced d us e ++ ⟨.word .els, f⟩ :: braced g vs h))) n
      (.branch ⟨a.start, h.stop⟩ cond (.block ⟨d.start, e.stop⟩ body)
        (some (.block ⟨g.start, h.stop⟩ other))) l := by
  refine ⟨a, _, rfl, fun layers layers' hq => ⟨_, ?_, .done⟩⟩
  have hthen :=
    hbody.reads_then (b := b) (c := c) (d := d) (e := e) hcond layers a.start
  have hclosed : Reads
      ⟨.elseBody a.start cond (.block ⟨d.start, e.stop⟩ body) g.start [] :: layers,
        .declaration, k⟩
      (vs ++ [⟨.sign .rbrace, h⟩]) ⟨layers', .declaration, l⟩ := by
    refine hother.closed (fun _ _ => rfl) ?_
    simp only [closeBody, reverse_reverse]
    exact hq _ rfl
  have helse :
    Reads ⟨layers, .branchNext a.start cond (.block ⟨d.start, e.stop⟩ body), k⟩
      (⟨.word .els, f⟩ :: braced g vs h) ⟨layers', .declaration, l⟩ :=
        .cons rfl (.cons rfl hclosed)
  simpa only [cons_append, append_assoc] using hthen.append helse

private theorem chained (hs : BranchReadable vs k s l)
    (hstop : s.span.stop = stopOf vs) :
    BranchReadable
      (⟨.word .ifs, a⟩ :: ⟨.sign .lparen, b⟩ :: (ts ++ ⟨.sign .rparen, c⟩ ::
        (braced d us e ++ ⟨.word .els, f⟩ :: vs))) n
      (.branch ⟨a.start, stopOf vs⟩ cond (.block ⟨d.start, e.stop⟩ body) (some s))
        l := by
  obtain ⟨g, ws, rfl, hs⟩ := hs
  refine ⟨a, _, rfl, fun layers layers' hq => ?_⟩
  have hthen :=
    hbody.reads_then (b := b) (c := c) (d := d) (e := e) hcond layers a.start
  obtain ⟨p, hreads, hsettled⟩ :=
    hs (.elseIf a.start cond (.block ⟨d.start, e.stop⟩ body) :: layers) layers'
      fun p hp => by
      rw [← hq p hp, ← hstop]
      rfl
  refine ⟨p, ?_, hsettled⟩
  simpa only [cons_append, append_assoc] using hthen.append
    (.cons rfl (.cons rfl hreads))

end BranchReadable

private theorem FunctionReadable.mk {k : NodeId} {body : List Stmt} {x : String}
    {b c d e f g : Span} (hps : Comma Named ps n params m)
    (hbody : BodyReadable ts m body k) :
    FunctionReadable
      (⟨.word .func, a⟩ :: ⟨.ident x, b⟩ :: ⟨.sign .lparen, c⟩ ::
        (ps ++ ⟨.sign .rparen, d⟩ :: ⟨.sign .eq, e⟩ :: braced f ts g)) n
      (.mk ⟨x, b⟩ params body ⟨a.start, g.stop⟩) k := by
  refine ⟨a, _, rfl, fun layers q hq => .cons rfl (.cons rfl ?_)⟩
  have hclosed :
    Reads ⟨.functionBody a.start ⟨x, b⟩ params [] :: layers, .declaration, m⟩
      (ts ++ [⟨.sign .rbrace, g⟩]) q := by
    refine hbody.closed (fun _ _ => rfl) ?_
    simp only [closeBody, reverse_reverse]
    exact hq _ rfl
  rw [append_cons]
  exact (hps.reads_params layers a.start ⟨x, b⟩).append (.cons rfl (.cons rfl hclosed))

private theorem BodyReadable.print {operand : Option Expr} {newline : Bool}
    {b c d : Span} (h : Optional (Phrase .assignment) ts n operand m) :
    BodyReadable
      (⟨.word (printWord newline), a⟩ :: ⟨.sign .lparen, b⟩ ::
        (ts ++ [⟨.sign .rparen, c⟩, ⟨.sign .semi, d⟩])) n
      [.print ⟨a.start, d.stop⟩ newline operand] m := by
  refine of_finishStmt fun layers q hq => ?_
  have hword : feed ⟨layers, .declaration, n⟩ ⟨.word (printWord newline), a⟩ =
      .ok ⟨layers, .printOpen a.start newline, n⟩ := by
    cases newline <;> rfl
  have hsemi : feed ⟨layers, .printEnd a.start newline operand, m⟩ ⟨.sign .semi, d⟩ =
      .ok q :=
    hq _ rfl
  refine .cons hword (.cons rfl ?_)
  cases h with
  | none => exact .cons rfl (.single hsemi)
  | some h =>
    have hparen : Reads ⟨.printOperand a.start newline :: layers, .operand, n⟩
        (ts ++ [⟨.sign .rparen, c⟩]) ⟨layers, .printEnd a.start newline (some _), m⟩ :=
      h.read.ended trivial rfl fun _ => rfl
    rw [append_cons]
    exact hparen.append (.single hsemi)

private theorem BodyReadable.ret {operand : Option Expr} {b : Span}
    (h : Optional (Phrase .assignment) ts n operand m) :
    BodyReadable (⟨.word .ret, a⟩ :: (ts ++ [⟨.sign .semi, b⟩])) n
      [.ret ⟨a.start, b.stop⟩ operand] m := by
  refine of_finishStmt fun layers q hq => .cons rfl ?_
  cases h with
  | none => exact .single (hq _ rfl)
  | some h => exact h.read.ended trivial rfl fun _ => hq _ rfl

private theorem BodyReadable.expression (h : Phrase .assignment ts n e m) :
    BodyReadable (ts ++ [⟨.sign .semi, a⟩]) n
      [.expression ⟨startOf ts, a.stop⟩ e] m := by
  refine of_finishStmt fun layers q hq => reads_statement ?_ (by simp)
  rw [startOf_append _ h.ne_nil]
  exact h.read.ended trivial rfl fun _ => hq _ rfl

mutual

/-- The parser reads every list of declarations. -/
theorem Declarations.read {ts : Tokens} {n m : NodeId} {body : List Stmt} :
    Declarations ts n body m → BodyReadable ts n body m
  | .nil => fun _ _ _ _ => ⟨_, .nil, .done⟩
  | .more hbody hs => hbody.read.append hs.read

private theorem Declaration.read {ts : Tokens} {n m : NodeId} {s : Stmt} :
    Declaration ts n s m → BodyReadable ts n [s] m
  | .function h => h.span_eq ▸ .of_function h.read
  | .cls hss hms => .cls hss (hms.read _ _ _)
  | .statement h => h.read

private theorem FunctionDeclaration.read {ts : Tokens} {n m : NodeId}
    {decl : FunctionDecl} :
    FunctionDeclaration ts n decl m → FunctionReadable ts n decl m
  | .mk hps hbody => .mk hps hbody.read

/-- The parser reads the functions of a class. -/
private theorem Methods.read {ts : Tokens} {n m : NodeId}
    {methods : List FunctionDecl} :
    Methods ts n methods m → ∀ start name superclass layers,
      Reads ⟨.classBody start name superclass [] :: layers, .member, n⟩ ts
        ⟨.classBody start name superclass methods.reverse :: layers, .member, m⟩
  | .nil, _, _, _, _ => .nil
  | .more hms hdecl, start, name, superclass, layers => by
    obtain ⟨a, us, rfl, hread⟩ := hdecl.read
    rw [reverse_append]
    refine (hms.read start name superclass layers).append (.cons rfl (hread _ _ ?_))
    rintro p rfl
    rfl

private theorem Statement.read {ts : Tokens} {n m : NodeId} {s : Stmt} :
    Statement ts n s m → BodyReadable ts n [s] m
  | .var => .of_finishStmt fun _ _ hq => .cons rfl (.cons rfl (.single (hq _ rfl)))
  | .varInit h => .of_finishStmt fun _ _ hq =>
    .cons rfl (.cons rfl (.cons rfl (h.read.ended trivial rfl fun _ => hq _ rfl)))
  | .print h => .print h
  | .ret h => .ret h
  | .brk => .of_finishStmt fun _ _ hq => .cons rfl (.single (hq _ rfl))
  | .conditional h => .of_branch h.read
  | .loop hcond hbody => .loop hcond.read hbody.read
  | .block hbody => .block hbody.read
  | .expression h => .expression h

private theorem Conditional.read {ts : Tokens} {n m : NodeId} {s : Stmt} :
    Conditional ts n s m → BranchReadable ts n s m
  | .plain hcond hbody => .plain hcond.read hbody.read
  | .otherwise hcond hbody hother => .otherwise hcond.read hbody.read hother.read
  | .chained hcond hbody h =>
    .chained hcond.read hbody.read h.read (by rw [h.span_eq]; rfl)

end

end Grammar

/-- The parser accepts every program, with the tree and the numbers of its
derivation. -/
theorem parse_of_derives {firstId next : NodeId} {tokens : Tokens} {program : Program}
    (h : Derives firstId tokens program next) :
    parse firstId tokens = (.ok program, next) := by
  obtain ⟨p, hreads, hsettled⟩ :=
    Declarations.read h Layer.program (fun _ _ => rfl) [] []
  have hfinish : p.finish = some program := by
    rw [hsettled.finish]
    simp [Parser.finish]
  rw [parse, Parser.start, hreads.parseFrom hfinish, hsettled.nextId]

end Treewalk
