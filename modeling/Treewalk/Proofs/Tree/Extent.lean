import Treewalk.Proofs.Token.LongestMatch
import Treewalk.Proofs.Tree.Sound

/-!
# Where the nodes of a tree stand

Every node that has a place stands at its tokens: the place goes from where the first of
them starts to where the last one stops. What the tokens of a node are is said by its
form, `Node.form`: some words and signs, and in between the nodes right below it, in the
order of the text. `Fills items ts` reads: the tokens `ts` are these words and signs and
the tokens of these nodes, one after the other, and every node below, at any depth,
stands at its own.

The tokens of a text do not overlap (`Ordered`). That is all it takes to put operators
right, whose place is made from the places of their operands: the left one starts first
and the right one stops last.

* `Declarations.fills` — a program fills its text, by one induction over derivations.
* `Fills.split`, `Fills.apart` — a node has a block of the tokens, and nodes next to
  each other do not overlap.
* `spans_of_parse` — places in a program that was read from a text.
-/

namespace Treewalk

open List

variable {t : Located Token} {items : List Item} {ts : Tokens}

/-! ## Nodes and their forms -/

/-- A node that has a place. -/
inductive Node where
  | stmt (stmt : Stmt)
  | expr (expr : Expr)
  | name (name : Name)
  | function (decl : FunctionDecl)
  | cls (decl : ClassDecl)

/-- What a form is made of. -/
inductive Item where
  | token (token : Token)
  | node (node : Node)

namespace Item

/-- The node that an item is. -/
def node? : Item → Option Node
  | .token _ => none
  | .node found => some found

/-- A reserved word. -/
abbrev word (k : Keyword) : Item :=
  token (.word k)

abbrev sign (s : Sign) : Item :=
  token (.sign s)

/-- Nodes with a comma after each. -/
def commaed (nodes : List Node) : List Item :=
  nodes.flatMap fun item => [node item, sign .comma]

/-- Nodes between commas, with or without a comma after the last one. -/
def commas (trailing : Bool) (nodes : List Node) : List Item :=
  if trailing then commaed nodes else (commaed nodes).dropLast

/-- Items between braces. -/
def braces (items : List Item) : List Item :=
  sign .lbrace :: (items ++ [sign .rbrace])

/-- An expression that may be absent. -/
def operand (expr : Option Expr) : List Item :=
  expr.toList.map fun expr => node (.expr expr)

/-- Statements one after the other. -/
def stmts (body : List Stmt) : List Item :=
  body.map fun stmt => node (.stmt stmt)

/-- Functions one after the other. -/
def functions (decls : List FunctionDecl) : List Item :=
  decls.map fun decl => node (.function decl)

end Item

open Item in
/-- The form of an expression. A call may have a comma after its last argument. -/
def Expr.form (trailing : Bool) : Expr → List Item
  | assign _ _ name value => [token (.ident name), sign .eq, node (.expr value)]
  | binary _ left op right => [node (.expr left), sign op.sign, node (.expr right)]
  | call _ _ callee args =>
    node (.expr callee) :: sign .lparen ::
      (commas trailing (args.map .expr) ++ [sign .rparen])
  | get _ object name => [node (.expr object), sign .dot, node (.name name)]
  | grouping _ inner => [sign .lparen, node (.expr inner), sign .rparen]
  | literal _ value => [token value.token]
  | logical _ left op right =>
    [node (.expr left), Item.word op.word, node (.expr right)]
  | set _ object name value =>
    [node (.expr object), sign .dot, node (.name name), sign .eq, node (.expr value)]
  | super _ method => [Item.word .super, sign .dot, node (.name method)]
  | this _ => [Item.word .this]
  | unary _ op operand => [sign op.sign, node (.expr operand)]
  | var _ _ name => [token (.ident name)]

open Item in
/-- The form of a statement. -/
def Stmt.form : Stmt → List Item
  | block _ body => braces (stmts body)
  | funcDecl _ decl => [node (.function decl)]
  | classDecl _ decl => [node (.cls decl)]
  | branch _ cond onTrue onFalse =>
    Item.word .ifs :: sign .lparen :: node (.expr cond) :: sign .rparen ::
      node (.stmt onTrue) ::
      onFalse.toList.flatMap fun stmt => [Item.word .els, node (.stmt stmt)]
  | print _ newline operand =>
    Item.word (printWord newline) :: sign .lparen ::
      (Item.operand operand ++ [sign .rparen, sign .semi])
  | ret _ operand => Item.word .ret :: (Item.operand operand ++ [sign .semi])
  | brk _ => [Item.word .brk, sign .semi]
  | var _ name init =>
    Item.word .var :: node (.name name) ::
      (init.toList.flatMap (fun init => [sign .eq, node (.expr init)]) ++ [sign .semi])
  | loop _ cond body =>
    [Item.word .whiles, sign .lparen, node (.expr cond), sign .rparen,
      node (.stmt body)]
  | expression _ expr => [node (.expr expr), sign .semi]

open Item in
/-- The form of a function, which may have a comma after its last parameter. -/
def FunctionDecl.form (trailing : Bool) (decl : FunctionDecl) : List Item :=
  Item.word .func :: node (.name decl.name) :: sign .lparen ::
    (commas trailing (decl.params.map .name) ++ sign .rparen :: sign .eq ::
      braces (stmts decl.body))

open Item in
/-- The form of a class. -/
def ClassDecl.form (decl : ClassDecl) : List Item :=
  Item.word .cls :: node (.name decl.name) ::
    (decl.superclass.toList.flatMap (fun expr => [sign .colon, node (.expr expr)]) ++
      sign .eq :: braces (functions decl.methods))

namespace Node

/-- The place of a node. -/
def span : Node → Span
  | .stmt s => s.span
  | .expr e => e.span
  | .name x => x.span
  | .function decl => decl.span
  | .cls decl => decl.span

/-- What stands at the place of a node: words, signs and the nodes right below it. -/
def form (trailing : Bool) : Node → List Item
  | .stmt s => s.form
  | .expr e => e.form trailing
  | .name x => [.token (.ident x.node)]
  | .function decl => decl.form trailing
  | .cls decl => decl.form

/-- The nodes right below a node, in the order of the text. -/
def children (node : Node) : List Node :=
  (node.form true).filterMap Item.node?

end Node

/-- The nodes of a program, at any depth. -/
inductive Program.HasNode (program : Program) : Node → Prop where
  | stmt {stmt : Stmt} (mem : stmt ∈ program.stmts) : HasNode program (.stmt stmt)
  | child {node child : Node} (parent : HasNode program node)
      (mem : child ∈ node.children) :
      HasNode program child

namespace Grammar

variable {items : List Item} {ts us tokens : Tokens} {node : Node} {n m : NodeId}
  {source : String}

/-- The tokens are those of the items, one after the other, and every node among them,
and below them, has the place of its tokens. -/
inductive Fills : List Item → Tokens → Prop where
  | nil : Fills [] []
  | token {t : Token} {a : Span} {items : List Item} {ts : Tokens}
      (others : Fills items ts) :
      Fills (.token t :: items) (⟨t, a⟩ :: ts)
  | node {node : Node} {trailing : Bool} {items : List Item} {us ts : Tokens}
      (form : Fills (node.form trailing) us) (place : node.span = extent us)
        (others : Fills items ts) :
      Fills (.node node :: items) (us ++ ts)

/-- These are the tokens of the node. -/
structure Occupies (node : Node) (ts : Tokens) : Prop where
  form : ∃ trailing, Fills (node.form trailing) ts
  place : node.span = extent ts

/-- Tokens that are not empty, one after the other. -/
structure Ordered (ts : Tokens) : Prop where
  proper : ∀ t ∈ ts, t.span.start < t.span.stop
  apart : ts.Pairwise fun t u => t.span.stop ≤ u.span.start

/-! ## Tokens in order -/

namespace Ordered

variable {ts us : Tokens}

private theorem sublist (h : Ordered ts) (hsub : us.Sublist ts) : Ordered us :=
  ⟨fun t ht => h.proper t (hsub.subset ht), h.apart.sublist hsub⟩

variable (h : Ordered (ts ++ us))

include h

private theorem left : Ordered ts :=
  h.sublist (sublist_append_left ts us)

private theorem right : Ordered us :=
  h.sublist (sublist_append_right ts us)

omit h in
private theorem tail (h : Ordered (t :: ts)) : Ordered ts :=
  h.sublist (sublist_cons_self t ts)

theorem stop_le_start (hts : ts ≠ []) (hus : us ≠ []) : stopOf ts ≤ startOf us := by
  obtain ⟨t, ht, hstop⟩ := exists_stopOf hts
  obtain ⟨u, hu, hstart⟩ := exists_startOf hus
  rw [hstop, hstart]
  exact (pairwise_append.1 h.apart).2.2 t ht u hu

omit h in
private theorem start_lt_stop (h : Ordered ts) (hts : ts ≠ []) :
    startOf ts < stopOf ts := by
  induction ts with
  | nil => exact absurd rfl hts
  | cons t ts ih =>
    have hproper : t.span.start < t.span.stop := h.proper t mem_cons_self
    by_cases hrest : ts = []
    · subst hrest
      exact hproper
    · have hsplit : Ordered ([t] ++ ts) := h
      have hgap := hsplit.stop_le_start (cons_ne_nil _ _) hrest
      have hlater := ih h.tail hrest
      rw [← singleton_append, stopOf_append _ hrest]
      simp only [singleton_append, startOf_cons, stopOf_singleton] at hgap ⊢
      omega

private theorem start_le (hus : us ≠ []) : startOf (ts ++ us) ≤ startOf us := by
  by_cases hts : ts = []
  · rw [hts, nil_append]
  · have hfirst := h.left.start_lt_stop hts
    have hgap := h.stop_le_start hts hus
    rw [startOf_append _ hts]
    omega

private theorem le_stop (hts : ts ≠ []) : stopOf ts ≤ stopOf (ts ++ us) := by
  by_cases hus : us = []
  · rw [hus, append_nil]
  · have hlast := h.right.start_lt_stop hus
    have hgap := h.stop_le_start hts hus
    rw [stopOf_append _ hus]
    omega

end Ordered

/-! ## Parts that fill -/

private theorem Fills.append {others : List Item} (h : Fills items ts)
    (h' : Fills others us) :
    Fills (items ++ others) (ts ++ us) := by
  induction h with
  | nil => exact h'
  | token _ ih => exact .token ih
  | node form place _ _ ih =>
    rw [append_assoc]
    exact .node form place ih

private theorem Fills.cons {node : Node} {us : Tokens} (h : Occupies node us)
    (others : Fills items ts) :
    Fills (.node node :: items) (us ++ ts) := by
  obtain ⟨⟨trailing, form⟩, place⟩ := h
  exact .node form place others

private theorem Fills.single (h : Occupies node us) : Fills [.node node] us := by
  have hfills := Fills.cons h .nil
  rwa [append_nil] at hfills

theorem Fills.braces (a b : Span) (h : Fills items ts) :
    Fills (Item.braces items) (braced a ts b) :=
  .token (h.append (.token .nil))

private theorem occupies_name (x : String) (a : Span) :
    Occupies (.name ⟨x, a⟩) [⟨.ident x, a⟩] :=
  ⟨⟨false, .token .nil⟩, rfl⟩

theorem occupies_block {body : List Stmt} (a b : Span)
    (h : Fills (Item.stmts body) ts) :
    Occupies (.stmt (.block ⟨a.start, b.stop⟩ body)) (braced a ts b) where
  form := ⟨false, h.braces a b⟩
  place := by simp [Node.span, Stmt.span, extent, braced]

/-! ## Places -/

private theorem form_ne_nil (node : Node) (trailing : Bool) :
    node.form trailing ≠ [] := by
  cases node with
  | stmt s => cases s <;> exact cons_ne_nil _ _
  | expr e => cases e <;> exact cons_ne_nil _ _
  | name x => exact cons_ne_nil _ _
  | function decl => exact cons_ne_nil _ _
  | cls decl => exact cons_ne_nil _ _

private theorem Fills.ne_nil (h : Fills items ts) (hitems : items ≠ []) : ts ≠ [] := by
  induction h with
  | nil => exact absurd rfl hitems
  | token _ _ => exact cons_ne_nil _ _
  | @node node trailing _ us ts _ _ _ hform _ =>
    have hus := hform (form_ne_nil node trailing)
    simp [hus]

private theorem Occupies.ne_nil {node : Node} (h : Occupies node ts) : ts ≠ [] := by
  obtain ⟨trailing, hform⟩ := h.form
  exact hform.ne_nil (form_ne_nil node trailing)

/-- The smallest place around two groups of tokens and a token in between. -/
private theorem merge_extent (h : Ordered (ts ++ t :: us)) (hts : ts ≠ [])
    (hus : us ≠ []) :
    (extent ts).merge (extent us) = extent (ts ++ t :: us) := by
  have hall : ts ++ t :: us = ts ++ [t] ++ us := by simp
  have hstart : startOf ts ≤ startOf us := by
    rw [hall] at h
    have hle := h.start_le hus
    rwa [← hall, startOf_append _ hts] at hle
  have hstop : stopOf ts ≤ stopOf us := by
    have hle := h.le_stop hts
    rwa [hall, stopOf_append _ hus] at hle
  rw [extent, extent, extent, Span.merge, Nat.min_eq_left hstart,
    Nat.max_eq_right hstop, startOf_append _ hts, hall, stopOf_append _ hus]

/-- An operator and its operands. They do not overlap, so the smallest place around both
goes from one to the other. -/
private theorem occupies_join {left right : Expr} (op : Operator) (a : Span)
    (ho : Ordered (ts ++ ⟨op.token, a⟩ :: us)) (hleft : Occupies (.expr left) ts)
    (hright : Occupies (.expr right) us) :
    Occupies (.expr (op.join left right)) (ts ++ ⟨op.token, a⟩ :: us) := by
  have hmerge : left.span.merge right.span = extent (ts ++ ⟨op.token, a⟩ :: us) := by
    have hl : left.span = extent ts := hleft.place
    have hr : right.span = extent us := hright.place
    rw [hl, hr, merge_extent ho hleft.ne_nil hright.ne_nil]
  cases op with
  | binary op => exact ⟨⟨false, .cons hleft (.token (.single hright))⟩, hmerge⟩
  | logical op => exact ⟨⟨false, .cons hleft (.token (.single hright))⟩, hmerge⟩

private theorem Statement.place {s : Stmt} (h : Statement ts n s m) :
    s.span = extent ts := by
  cases h with
  | var => rfl
  | varInit h => simp [Stmt.span, extent]
  | print h => simp [Stmt.span, extent]
  | ret h => simp [Stmt.span, extent]
  | brk => rfl
  | conditional h => exact h.span_eq
  | loop hcond hbody => simp [Stmt.span, extent, braced]
  | block hbody => simp [Stmt.span, extent, braced]
  | expression h => simp [Stmt.span, extent, startOf_append _ h.ne_nil]

private theorem Declaration.place {n m : NodeId} {s : Stmt} (h : Declaration ts n s m) :
    s.span = extent ts := by
  cases h with
  | function h => rfl
  | cls hs hms => simp [Stmt.span, extent, braced]
  | statement h => exact h.place

/-! ## Lists between commas -/

/-- An item of a list has its tokens. -/
def Occupied {α : Type} (node : α → Node) (ts : Tokens) (_ : NodeId) (x : α)
    (_ : NodeId) : Prop :=
  Occupies (node x) ts

section Lists

variable {α : Type} {node : α → Node} {ts : Tokens} {n m : NodeId} {xs : List α}

theorem Commaed.fills (h : Commaed (Occupied node) ts n xs m) :
    Fills (Item.commaed (xs.map node)) ts := by
  induction h with
  | nil => exact .nil
  | @more _ _ _ _ _ xs x a _ hx ih =>
    have hitems : Item.commaed ((xs ++ [x]).map node) =
        Item.commaed (xs.map node) ++ [.node (node x), .sign .comma] := by
      simp [Item.commaed]
    rw [hitems]
    exact ih.append (.cons hx (.token .nil))

private theorem Comma.fills (h : Comma (Occupied node) ts n xs m) :
    ∃ trailing, Fills (Item.commas trailing (xs.map node)) ts := by
  cases h with
  | closed hxs => exact ⟨true, hxs.fills⟩
  | @last ts us _ _ _ xs x hxs hx =>
    have hitems : Item.commas false ((xs ++ [x]).map node) =
        Item.commaed (xs.map node) ++ [.node (node x)] := by
      simp [Item.commas, Item.commaed]
    refine ⟨false, ?_⟩
    rw [hitems]
    exact hxs.fills.append (.single hx)

end Lists

/-! ## Derivations fill their tokens -/

mutual

/-- An expression stands at its tokens. -/
private theorem Phrase.occupies {r : Rank} {ts : Tokens} {n m : NodeId} {e : Expr} :
    Phrase r ts n e m → Ordered ts → Occupies (.expr e) ts
  | .assign h, ho => by
    refine ⟨⟨false, .token (.token (.single (h.occupies ho.tail.tail)))⟩, ?_⟩
    obtain ⟨t, us, rfl⟩ := exists_cons_of_ne_nil h.ne_nil
    simp [Node.span, Expr.span, extent]
  | .set h hv, ho => by
    refine ⟨⟨false, .cons (h.occupies ho.left) (.token (.cons (occupies_name _ _)
      (.token (.single (hv.occupies ho.right.tail.tail.tail)))))⟩, ?_⟩
    obtain ⟨t, us, rfl⟩ := exists_cons_of_ne_nil hv.ne_nil
    simp [Node.span, Expr.span, extent, startOf_append _ h.ne_nil]
  | .join _ hl hr, ho =>
    occupies_join _ _ ho (hl.occupies ho.left) (hr.occupies ho.right.tail)
  | .unary h, ho =>
    ⟨⟨false, .token (.single (h.occupies ho.tail))⟩,
      Phrase.span_eq (.unary h) (Nat.le_refl _)⟩
  | .call h (.closed hargs), ho => by
    obtain ⟨trailing, hfills⟩ :=
      (Comma.closed (hargs.occupied ho.right.tail.left)).fills
    exact ⟨⟨trailing,
      .cons (h.occupies ho.left) (.token (hfills.append (.token .nil)))⟩, Phrase.span_eq
      (.call h (.closed hargs)) (by decide)⟩
  | .call h (.last hargs harg), ho => by
    have hall := ho.right.tail.left
    obtain ⟨trailing, hfills⟩ :=
      (Comma.last (k := m) (hargs.occupied hall.left) (harg.occupies hall.right)).fills
    exact ⟨⟨trailing,
      .cons (h.occupies ho.left) (.token (hfills.append (.token .nil)))⟩, Phrase.span_eq
      (.call h (.last hargs harg)) (by decide)⟩
  | .get h, ho =>
    ⟨⟨false, .cons (h.occupies ho.left) (.token (.single (occupies_name _ _)))⟩,
      Phrase.span_eq (.get h) (by decide)⟩
  | .literal, _ => ⟨⟨false, .token .nil⟩, rfl⟩
  | .this, _ => ⟨⟨false, .token .nil⟩, rfl⟩
  | .super, _ => ⟨⟨false, .token (.token (.single (occupies_name _ _)))⟩, rfl⟩
  | .var, _ => ⟨⟨false, .token .nil⟩, rfl⟩
  | .grouping h, ho =>
    ⟨⟨false, .token (.cons (h.occupies ho.tail.left) (.token .nil))⟩,
      Phrase.span_eq (.grouping h) (by decide)⟩
  | .climb _ h, ho => h.occupies ho

private theorem Commaed.occupied {ts : Tokens} {n m : NodeId} {args : List Expr} :
    Commaed (Phrase .assignment) ts n args m → Ordered ts →
      Commaed (Occupied .expr) ts n args m
  | .nil, _ => .nil
  | .more hargs harg, ho => .more (hargs.occupied ho.left) (harg.occupies ho.right.left)

end

private theorem Optional.fills {operand : Option Expr}
    (h : Optional (Phrase .assignment) ts n operand m) (ho : Ordered ts) :
    Fills (Item.operand operand) ts := by
  cases h with
  | none => exact .nil
  | some h => exact .single (h.occupies ho)

private theorem Named.occupied {x : Name} (h : Named ts n x m) :
    Occupied .name ts n x m := by
  cases h with
  | mk => exact occupies_name _ _

private theorem Comma.occupied_params {ps : Tokens} {params : List Name}
    (h : Comma Named ps n params m) :
    Comma (Occupied .name) ps n params m := by
  have hcommaed : ∀ {ps n params m}, Commaed Named ps n params m →
      Commaed (Occupied .name) ps n params m := by
    intro ps n params m h
    induction h with
    | nil => exact .nil
    | more _ hparam ih => exact .more ih hparam.occupied
  cases h with
  | closed hparams => exact .closed (hcommaed hparams)
  | last hparams hparam => exact .last (hcommaed hparams) hparam.occupied

private theorem Superclass.fills {superclass : Option Expr}
    (h : Superclass ts n superclass m) :
    Fills (superclass.toList.flatMap fun expr => [.sign .colon, .node (.expr expr)])
      ts := by
  cases h with
  | none => exact .nil
  | some => exact .token (.single ⟨⟨false, .token .nil⟩, rfl⟩)

mutual

/-- Declarations fill their tokens. -/
theorem Declarations.fills {ts : Tokens} {n m : NodeId} {body : List Stmt} :
    Declarations ts n body m → Ordered ts → Fills (Item.stmts body) ts
  | .nil, _ => .nil
  | .more hbody hs, ho => by
    rw [Item.stmts, map_append]
    exact (hbody.fills ho.left).append (.single ⟨⟨false, hs.fills ho.right⟩, hs.place⟩)

private theorem Declaration.fills {ts : Tokens} {n m : NodeId} {s : Stmt} :
    Declaration ts n s m → Ordered ts → Fills s.form ts
  | .function h, ho => .single ⟨h.fills ho, h.span_eq⟩
  | .cls hsuper hms, ho => by
    have hmethods := hms.fills ho.tail.tail.right.tail.tail.left
    refine .single ⟨⟨false, .token (.cons (occupies_name _ _) (hsuper.fills.append
      (.token (hmethods.braces _ _))))⟩, ?_⟩
    simp [Node.span, ClassDecl.span, extent, braced]
  | .statement h, ho => h.fills ho

private theorem FunctionDeclaration.fills {ts : Tokens} {n m : NodeId}
    {decl : FunctionDecl} :
    FunctionDeclaration ts n decl m → Ordered ts → ∃ trailing,
      Fills (decl.form trailing) ts
  | .mk hps hbody, ho => by
    obtain ⟨trailing, hparams⟩ := hps.occupied_params.fills
    have hstmts := hbody.fills ho.tail.tail.tail.right.tail.tail.tail.left
    exact ⟨trailing, .token (.cons (occupies_name _ _) (.token (hparams.append
      (.token (.token (hstmts.braces _ _))))))⟩

private theorem Methods.fills {ts : Tokens} {n m : NodeId}
    {methods : List FunctionDecl} :
    Methods ts n methods m → Ordered ts → Fills (Item.functions methods) ts
  | .nil, _ => .nil
  | .more hms hdecl, ho => by
    rw [Item.functions, map_append]
    exact (hms.fills ho.left).append (.single ⟨hdecl.fills ho.right, hdecl.span_eq⟩)

private theorem Statement.fills {ts : Tokens} {n m : NodeId} {s : Stmt} :
    Statement ts n s m → Ordered ts → Fills s.form ts
  | .var, _ => .token (.cons (occupies_name _ _) (.token .nil))
  | .varInit h, ho =>
    .token
      (.cons (occupies_name _ _)
        (.token (.cons (h.occupies ho.tail.tail.tail.left) (.token .nil))))
  | .print h, ho =>
    .token (.token ((h.fills ho.tail.tail.left).append (.token (.token .nil))))
  | .ret h, ho => .token ((h.fills ho.tail.left).append (.token .nil))
  | .brk, _ => .token (.token .nil)
  | .conditional h, ho => h.fills ho
  | .loop hcond hbody, ho =>
    have hcond := hcond.occupies ho.tail.tail.left
    have hbody := hbody.fills ho.tail.tail.right.tail.tail.left
    .token (.token (.cons hcond (.token (.single (occupies_block _ _ hbody)))))
  | .block hbody, ho => (hbody.fills ho.tail.left).braces _ _
  | .expression h, ho => .cons (h.occupies ho.left) (.token .nil)

private theorem Conditional.fills {ts : Tokens} {n m : NodeId} {s : Stmt} :
    Conditional ts n s m → Ordered ts → Fills s.form ts
  | .plain hcond hbody, ho =>
    have hcond := hcond.occupies ho.tail.tail.left
    have hbody := hbody.fills ho.tail.tail.right.tail.tail.left
    .token (.token (.cons hcond (.token (.single (occupies_block _ _ hbody)))))
  | .otherwise hcond hbody hother, ho =>
    have hcond := hcond.occupies ho.tail.tail.left
    have hblocks := ho.tail.tail.right.tail
    have hbody := hbody.fills hblocks.left.tail.left
    have hother := hother.fills hblocks.right.tail.tail.left
    .token (.token (.cons hcond (.token (.cons (occupies_block _ _ hbody)
      (.token (.single (occupies_block _ _ hother)))))))
  | .chained hcond hbody h, ho =>
    have hcond := hcond.occupies ho.tail.tail.left
    have hblocks := ho.tail.tail.right.tail
    have hbody := hbody.fills hblocks.left.tail.left
    .token (.token (.cons hcond (.token (.cons (occupies_block _ _ hbody)
      (.token (.single ⟨⟨false, h.fills hblocks.right.tail⟩, h.span_eq⟩))))))

end

/-! ## Nodes and their blocks of tokens -/

private theorem nodes_commaed (nodes : List Node) :
    (Item.commaed nodes).filterMap Item.node? = nodes := by
  induction nodes with
  | nil => rfl
  | cons node nodes ih =>
    rw [Item.commaed, flatMap_cons, ← Item.commaed, filterMap_append, ih]
    rfl

/-- A comma after the last item of a list is no node. -/
theorem nodes_commas (trailing : Bool) (nodes : List Node) :
    (Item.commas trailing nodes).filterMap Item.node? = nodes := by
  cases trailing with
  | true => exact nodes_commaed nodes
  | false =>
    rcases eq_nil_or_concat nodes with rfl | ⟨others, last, rfl⟩
    · rfl
    · have hitems : Item.commas false (others ++ [last]) = Item.commaed others ++
          [.node last] := by
        simp [Item.commas, Item.commaed]
      rw [concat_eq_append, hitems, filterMap_append, nodes_commaed]
      rfl

theorem nodes_form (node : Node) (trailing : Bool) :
    (node.form trailing).filterMap Item.node? = node.children := by
  cases node with
  | expr e =>
    cases e with
    | call span id callee args =>
      simp [Node.children, Node.form, Expr.form, filterMap_cons, nodes_commas,
        Item.node?]
    | _ => rfl
  | function decl =>
    simp [Node.children, Node.form, FunctionDecl.form, filterMap_cons, nodes_commas,
      Item.node?]
  | _ => rfl

/-- A node among the items has a block of the tokens. -/
theorem Fills.split (h : Fills items ts) (hnode : node ∈ items.filterMap Item.node?) :
    ∃ before us after, ts = before ++ us ++ after ∧ Occupies node us := by
  induction h with
  | nil => cases hnode
  | @token t a _ _ _ ih =>
    obtain ⟨before, us, after, rfl, hus⟩ := ih hnode
    exact ⟨⟨t, a⟩ :: before, us, after, rfl, hus⟩
  | @node first trailing _ vs _ hform hplace _ _ ih =>
    rcases mem_cons.1 hnode with rfl | hnode
    · exact ⟨[], vs, _, rfl, ⟨trailing, hform⟩, hplace⟩
    · obtain ⟨before, us, after, rfl, hus⟩ := ih hnode
      exact ⟨vs ++ before, us, after, by simp only [append_assoc], hus⟩

/-- Nodes next to each other do not overlap, and come in the order of the text. -/
theorem Fills.apart (h : Fills items ts) (ho : Ordered ts) :
    (items.filterMap Item.node?).Pairwise fun a b => a.span.stop ≤ b.span.start := by
  induction h with
  | nil => exact .nil
  | token _ ih => exact ih ho.tail
  | @node first trailing _ vs _ hform hplace hothers _ ih =>
    refine .cons ?_ (ih ho.right)
    intro other hother
    obtain ⟨before, us, after, rfl, hus⟩ := hothers.split hother
    have hvs := hform.ne_nil (form_ne_nil first trailing)
    have hgap : Ordered (vs ++ us) := ho.sublist (by simp)
    rw [hplace, hus.place]
    exact hgap.stop_le_start hvs hus.ne_nil

/-- A block of the tokens lies inside of all of them. -/
theorem Ordered.inside {before after : Tokens} (h : Ordered (before ++ us ++ after))
    (hus : us ≠ []) :
    startOf (before ++ us ++ after) ≤ startOf us ∧
      stopOf us ≤ stopOf (before ++ us ++ after) := by
  have hne : before ++ us ≠ [] := by simp [hus]
  have hstart := h.left.start_le hus
  have hstop := h.le_stop hne
  rw [stopOf_append _ hus] at hstop
  rw [startOf_append _ hne]
  exact ⟨hstart, hstop⟩

theorem ordered_of_tokenize (h : tokenize source = .ok tokens) : Ordered tokens :=
  ⟨fun t ht => ((spaced_of_tokenize h).within t ht).nonempty,
    (spaced_of_tokenize h).disjoint⟩

private theorem within_extent (h : tokenize source = .ok tokens)
    (hsub : us.Sublist tokens) (hus : us ≠ []) :
    (extent us).Within source := by
  obtain ⟨t, ht, hstart⟩ := exists_startOf hus
  obtain ⟨u, hu, hstop⟩ := exists_stopOf hus
  have hfirst := (spaced_of_tokenize h).within t (hsub.subset ht)
  have hlast := (spaced_of_tokenize h).within u (hsub.subset hu)
  have hlt := ((ordered_of_tokenize h).sublist hsub).start_lt_stop hus
  rw [hstart, hstop] at hlt
  rw [extent, hstart, hstop]
  exact ⟨hlt, hlast.inside, hfirst.start, hlast.stop⟩

theorem nodes_stmts (body : List Stmt) :
    (Item.stmts body).filterMap Item.node? = body.map .stmt := by
  simp [Item.stmts, filterMap_map, Item.node?, Function.comp_def]

/-- The nodes of a program have their blocks, a child inside the block of its parent. -/
theorem Fills.block_of_hasNode {program : Program}
    (h : Fills (Item.stmts program.stmts) tokens) (hnode : program.HasNode node) :
    ∃ before us after, tokens = before ++ us ++ after ∧ Occupies node us := by
  induction hnode with
  | @stmt s hmem =>
    refine h.split ?_
    rw [nodes_stmts]
    exact mem_map_of_mem hmem
  | @child parent node _ hmem ih =>
    obtain ⟨before, us, after, rfl, ⟨trailing, hform⟩, -⟩ := ih
    rw [← nodes_form parent trailing] at hmem
    obtain ⟨before', vs, after', rfl, hvs⟩ := hform.split hmem
    exact ⟨before ++ before', vs, after' ++ after, by simp only [append_assoc], hvs⟩

/-- Two nodes and a token between them go from where the first one starts to where the
second one stops. -/
private theorem Fills.between {left right : Node} {t : Token}
    (h : Fills [.node left, .token t, .node right] ts) :
    extent ts = ⟨left.span.start, right.span.stop⟩ := by
  cases h with
  | @node _ trailing _ us _ form place others =>
    cases others with
    | token others =>
      cases others with
      | @node _ trailing' _ vs _ form' place' others =>
        cases others
        have hus := form.ne_nil (form_ne_nil left trailing)
        have hvs := form'.ne_nil (form_ne_nil right trailing')
        rw [append_nil, place, place', extent, startOf_append _ hus, append_cons,
          stopOf_append _ hvs]
        rfl

private theorem Fills.enclosed {inner : Node} {t u : Token}
    (h : Fills [.token t, .node inner, .token u] ts) :
    ∃ a us b, ts = ⟨t, a⟩ :: (us ++ [⟨u, b⟩]) ∧ inner.span = extent us := by
  cases h with
  | @token _ a _ _ others =>
    cases others with
    | @node _ _ _ us _ form place others =>
      cases others with
      | @token _ b _ _ others =>
        cases others
        exact ⟨a, us, b, rfl, place⟩

/-- All there is to the place of a node: it is that of its tokens, a range of the text,
and the nodes right below are inside of it, one after the other. -/
structure Placed (source : String) (tokens : Tokens) (node : Node) : Prop where
  block : ∃ before ts after, tokens = before ++ ts ++ after ∧ ts ≠ [] ∧ Occupies node ts
  within : node.span.Within source
  inside : ∀ child ∈ node.children, node.span.start ≤ child.span.start ∧
    child.span.stop ≤ node.span.stop
  apart : node.children.Pairwise fun a b => a.span.stop ≤ b.span.start

theorem Occupies.placed {before after : Tokens}
    (h : tokenize source = .ok (before ++ ts ++ after)) (hts : Occupies node ts) :
    Placed source (before ++ ts ++ after) node := by
  have hsub : ts.Sublist (before ++ ts ++ after) :=
    (sublist_append_right before ts).trans (sublist_append_left _ after)
  have ho := (ordered_of_tokenize h).sublist hsub
  obtain ⟨trailing, hform⟩ := hts.form
  refine ⟨⟨before, ts, after, rfl, hts.ne_nil, hts⟩, ?_, ?_, ?_⟩
  · rw [hts.place]
    exact within_extent h hsub hts.ne_nil
  · intro child hchild
    rw [← nodes_form node trailing] at hchild
    obtain ⟨left, us, right, rfl, hus⟩ := hform.split hchild
    rw [hts.place, hus.place]
    exact ho.inside hus.ne_nil
  · rw [← nodes_form node trailing]
    exact hform.apart ho

end Grammar

open Grammar in
/-- The places in a program that was read from a text. The tokens of the text are those
of its nodes, so a node stands at its own tokens, from the first to the last; an
operator goes from its left operand to its right one and a grouping from its opening to
its closing parenthesis. No place is empty or outside of the text, the nodes below a
node are inside of it, and those side by side come one after the other. -/
theorem spans_of_parse {source : String} {tokens : List (Located Token)}
    {firstId next : NodeId} {program : Program} (htokens : tokenize source = .ok tokens)
    (hparse : parse firstId tokens = (.ok program, next)) :
    Fills (Item.stmts program.stmts) tokens ∧
    (∀ node, program.HasNode node → Placed source tokens node) ∧
    (program.stmts.Pairwise fun a b => a.span.stop ≤ b.span.start) ∧
    (∀ span left op right, program.HasNode (.expr (.binary span left op right)) →
      span = ⟨left.span.start, right.span.stop⟩) ∧
    (∀ span left op right, program.HasNode (.expr (.logical span left op right)) →
      span = ⟨left.span.start, right.span.stop⟩) ∧
    ∀ span inner, program.HasNode (.expr (.grouping span inner)) →
      ∃ before a ts b after,
        tokens = before ++ ⟨.sign .lparen, a⟩ :: (ts ++ [⟨.sign .rparen, b⟩]) ++ after ∧
          span = ⟨a.start, b.stop⟩ ∧ inner.span = extent ts := by
  have ho := ordered_of_tokenize htokens
  have hfills := Declarations.fills (derives_of_parse hparse) ho
  refine ⟨hfills, ?_, ?_, ?_, ?_, ?_⟩
  · intro node hnode
    obtain ⟨before, ts, after, rfl, hts⟩ := hfills.block_of_hasNode hnode
    exact hts.placed htokens
  · have hapart := hfills.apart ho
    rw [nodes_stmts, pairwise_map] at hapart
    exact hapart
  · intro span left op right hnode
    obtain ⟨before, ts, after, -, ⟨trailing, hform⟩, hplace⟩ :=
      hfills.block_of_hasNode hnode
    exact hplace.trans hform.between
  · intro span left op right hnode
    obtain ⟨before, ts, after, -, ⟨trailing, hform⟩, hplace⟩ :=
      hfills.block_of_hasNode hnode
    exact hplace.trans hform.between
  · intro span inner hnode
    obtain ⟨before, ts, after, htext, ⟨trailing, hform⟩, hplace⟩ :=
      hfills.block_of_hasNode hnode
    obtain ⟨a, us, b, rfl, hinner⟩ := hform.enclosed
    refine ⟨before, a, us, b, after, htext, hplace.trans ?_, hinner⟩
    simp [extent]

/-- A method with a comma after its parameter, and a grouping at the right of an
operator. -/
def scaleText : String :=
  "class A : B = \x7b func m(p,) = \x7b return 2 * (p + 1); \x7d \x7d"

def scaleTokens : List (Located Token) :=
  [⟨.word .cls, ⟨0, 5⟩⟩, ⟨.ident "A", ⟨6, 7⟩⟩, ⟨.sign .colon, ⟨8, 9⟩⟩,
    ⟨.ident "B", ⟨10, 11⟩⟩, ⟨.sign .eq, ⟨12, 13⟩⟩, ⟨.sign .lbrace, ⟨14, 15⟩⟩,
    ⟨.word .func, ⟨16, 20⟩⟩, ⟨.ident "m", ⟨21, 22⟩⟩, ⟨.sign .lparen, ⟨22, 23⟩⟩,
    ⟨.ident "p", ⟨23, 24⟩⟩, ⟨.sign .comma, ⟨24, 25⟩⟩, ⟨.sign .rparen, ⟨25, 26⟩⟩,
    ⟨.sign .eq, ⟨27, 28⟩⟩, ⟨.sign .lbrace, ⟨29, 30⟩⟩, ⟨.word .ret, ⟨31, 37⟩⟩,
    ⟨.number 2, ⟨38, 39⟩⟩, ⟨.sign .star, ⟨40, 41⟩⟩, ⟨.sign .lparen, ⟨42, 43⟩⟩,
    ⟨.ident "p", ⟨43, 44⟩⟩, ⟨.sign .plus, ⟨45, 46⟩⟩, ⟨.number 1, ⟨47, 48⟩⟩,
    ⟨.sign .rparen, ⟨48, 49⟩⟩, ⟨.sign .semi, ⟨49, 50⟩⟩, ⟨.sign .rbrace, ⟨51, 52⟩⟩,
    ⟨.sign .rbrace, ⟨53, 54⟩⟩]

/-- `2 * (p + 1)` -/
def scaleProduct : Expr :=
  .binary ⟨38, 49⟩ (.literal ⟨38, 39⟩ (.number 2)) .mul (.grouping ⟨42, 49⟩
    (.binary ⟨43, 48⟩ (.var ⟨43, 44⟩ 1 "p") .add (.literal ⟨47, 48⟩ (.number 1))))

def scaleMethod : FunctionDecl :=
  .mk ⟨"m", ⟨21, 22⟩⟩ [⟨"p", ⟨23, 24⟩⟩] [.ret ⟨31, 50⟩ (some scaleProduct)] ⟨16, 52⟩

def scaleClass : ClassDecl :=
  .mk ⟨"A", ⟨6, 7⟩⟩ (some (.var ⟨10, 11⟩ 0 "B")) [scaleMethod] ⟨0, 54⟩

open Grammar in
theorem spans_of_parse_scaleText :
    tokenize scaleText = .ok scaleTokens ∧
      parse 0 scaleTokens = (.ok ⟨[.classDecl ⟨0, 54⟩ scaleClass]⟩, 2) ∧
      Placed scaleText scaleTokens (.function scaleMethod) ∧
      Placed scaleText scaleTokens (.expr scaleProduct) := by
  have htokens : tokenize scaleText = .ok scaleTokens := by decide +kernel
  have hparse : parse 0 scaleTokens = (.ok ⟨[.classDecl ⟨0, 54⟩ scaleClass]⟩, 2) := rfl
  obtain ⟨-, hplaced, -⟩ := spans_of_parse htokens hparse
  have hclass : Program.HasNode ⟨[.classDecl ⟨0, 54⟩ scaleClass]⟩ (.cls scaleClass) :=
    .child (.stmt mem_cons_self) mem_cons_self
  have hmembers : (Node.cls scaleClass).children =
      [.name ⟨"A", ⟨6, 7⟩⟩, .expr (.var ⟨10, 11⟩ 0 "B"), .function scaleMethod] := rfl
  have hmethod : Program.HasNode ⟨[.classDecl ⟨0, 54⟩ scaleClass]⟩
      (.function scaleMethod) :=
    .child hclass (by simp [hmembers])
  have hparts : (Node.function scaleMethod).children =
      [.name ⟨"m", ⟨21, 22⟩⟩, .name ⟨"p", ⟨23, 24⟩⟩,
        .stmt (.ret ⟨31, 50⟩ (some scaleProduct))] := rfl
  have hret : Program.HasNode ⟨[.classDecl ⟨0, 54⟩ scaleClass]⟩
      (.stmt (.ret ⟨31, 50⟩ (some scaleProduct))) :=
    .child hmethod (by simp [hparts])
  have hproduct : Program.HasNode ⟨[.classDecl ⟨0, 54⟩ scaleClass]⟩
      (.expr scaleProduct) :=
    .child hret mem_cons_self
  exact ⟨htokens, hparse, hplaced _ hmethod, hplaced _ hproduct⟩

end Treewalk
