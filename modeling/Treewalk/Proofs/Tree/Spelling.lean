import Treewalk.Proofs.Tree.Grammar

/-!
# The tokens of a tree

A tree says how it is spelled: `Program.tokens` writes it out as tokens, with a comma
between any two arguments or parameters and none after the last. The grammar also allows
a comma there. So a derivation spells its tree out except for such commas:
`Grammar.Derives.tokens`.

That a comma before a closing parenthesis is dropped depends on the token after it, so
the spelling of a part is stated for every continuation (`Yields`).
-/

namespace Treewalk

open List

variable {ts : Tokens} {out : List Token} {a : Span} {n m : NodeId} {params : List Name}

/-! ## Spellings -/

/-- Items with a comma between any two. -/
def commaSeparated : List (List Token) → List Token
  | [] => []
  | [ts] => ts
  | ts :: us :: rest => ts ++ .sign .comma :: commaSeparated (us :: rest)

/-- The tokens without the commas that stand right before a closing parenthesis. -/
def dropTrailingCommas : List Token → List Token
  | [] => []
  | .sign .comma :: .sign .rparen :: ts => .sign .rparen :: dropTrailingCommas ts
  | t :: ts => t :: dropTrailingCommas ts

namespace Expr

mutual

/-- The tokens of an expression. -/
def tokens : Expr → List Token
  | assign _ _ name value => .ident name :: .sign .eq :: value.tokens
  | binary _ left op right => left.tokens ++ .sign op.sign :: right.tokens
  | call _ _ callee args =>
    callee.tokens ++ .sign .lparen ::
      (commaSeparated (listTokens args) ++ [.sign .rparen])
  | get _ object name => object.tokens ++ [.sign .dot, .ident name.node]
  | grouping _ inner => .sign .lparen :: (inner.tokens ++ [.sign .rparen])
  | literal _ value => [value.token]
  | logical _ left op right => left.tokens ++ .word op.word :: right.tokens
  | set _ object name value =>
    object.tokens ++ .sign .dot :: .ident name.node :: .sign .eq :: value.tokens
  | super _ method => [.word .super, .sign .dot, .ident method.node]
  | this _ => [.word .this]
  | unary _ op operand => .sign op.sign :: operand.tokens
  | var _ _ name => [.ident name]

/-- The tokens of every expression. -/
def listTokens : List Expr → List (List Token)
  | [] => []
  | expr :: rest => expr.tokens :: listTokens rest

end

/-- The tokens of an expression that may be absent. -/
def optionTokens : Option Expr → List Token
  | none => []
  | some expr => expr.tokens

end Expr

mutual

/-- The tokens of a statement. -/
def Stmt.tokens : Stmt → List Token
  | .block _ body => .sign .lbrace :: (Stmt.listTokens body ++ [.sign .rbrace])
  | .funcDecl _ decl => decl.tokens
  | .classDecl _ decl => decl.tokens
  | .branch _ cond onTrue none =>
    .word .ifs :: .sign .lparen :: (cond.tokens ++ .sign .rparen :: onTrue.tokens)
  | .branch _ cond onTrue (some onFalse) =>
    .word .ifs :: .sign .lparen ::
      (cond.tokens ++ .sign .rparen :: (onTrue.tokens ++ .word .els :: onFalse.tokens))
  | .print _ newline operand =>
    .word (printWord newline) :: .sign .lparen ::
      (Expr.optionTokens operand ++ [.sign .rparen, .sign .semi])
  | .ret _ operand => .word .ret :: (Expr.optionTokens operand ++ [.sign .semi])
  | .brk _ => [.word .brk, .sign .semi]
  | .var _ name none => [.word .var, .ident name.node, .sign .semi]
  | .var _ name (some init) =>
    .word .var :: .ident name.node :: .sign .eq :: (init.tokens ++ [.sign .semi])
  | .loop _ cond body =>
    .word .whiles :: .sign .lparen :: (cond.tokens ++ .sign .rparen :: body.tokens)
  | .expression _ expr => expr.tokens ++ [.sign .semi]

/-- The tokens of statements one after the other. -/
def Stmt.listTokens : List Stmt → List Token
  | [] => []
  | stmt :: rest => stmt.tokens ++ Stmt.listTokens rest

/-- The tokens of a function. -/
def FunctionDecl.tokens : FunctionDecl → List Token
  | .mk name params body _ =>
    .word .func :: .ident name.node :: .sign .lparen ::
      (commaSeparated (params.map fun param => [.ident param.node]) ++
        .sign .rparen :: .sign .eq :: .sign .lbrace ::
          (Stmt.listTokens body ++ [.sign .rbrace]))

/-- The tokens of a class. -/
def ClassDecl.tokens : ClassDecl → List Token
  | .mk name none methods _ =>
    .word .cls :: .ident name.node :: .sign .eq :: .sign .lbrace ::
      (FunctionDecl.listTokens methods ++ [.sign .rbrace])
  | .mk name (some superclass) methods _ =>
    .word .cls :: .ident name.node :: .sign .colon ::
      (superclass.tokens ++ .sign .eq :: .sign .lbrace ::
        (FunctionDecl.listTokens methods ++ [.sign .rbrace]))

/-- The tokens of functions one after the other. -/
def FunctionDecl.listTokens : List FunctionDecl → List Token
  | [] => []
  | decl :: rest => decl.tokens ++ FunctionDecl.listTokens rest

end

/-- The tokens of a program. -/
def Program.tokens (program : Program) : List Token :=
  Stmt.listTokens program.stmts

theorem Expr.listTokens_eq_map (exprs : List Expr) :
    Expr.listTokens exprs = exprs.map Expr.tokens := by
  induction exprs with
  | nil => rfl
  | cons expr exprs ih => rw [Expr.listTokens, ih, map_cons]

private theorem Stmt.listTokens_append (body body' : List Stmt) :
    Stmt.listTokens (body ++ body') = Stmt.listTokens body ++
      Stmt.listTokens body' := by
  induction body with
  | nil => rfl
  | cons s body ih => simp [Stmt.listTokens, ih]

private theorem FunctionDecl.listTokens_append (decls decls' : List FunctionDecl) :
    FunctionDecl.listTokens (decls ++ decls') =
      FunctionDecl.listTokens decls ++ FunctionDecl.listTokens decls' := by
  induction decls with
  | nil => rfl
  | cons decl decls ih => simp [FunctionDecl.listTokens, ih]

private theorem commaSeparated_concat (tss : List (List Token)) (ts : List Token) :
    commaSeparated (tss ++ [ts]) = tss.flatMap (· ++ [.sign .comma]) ++ ts := by
  induction tss with
  | nil => rfl
  | cons us tss ih =>
    cases tss with
    | nil => simp [commaSeparated]
    | cons vs tss =>
      rw [flatMap_cons, append_assoc, ← ih]
      simp [commaSeparated]

private theorem Operator.tokens_join (op : Operator) (left right : Expr) :
    (op.join left right).tokens = left.tokens ++ op.token :: right.tokens := by
  cases op <;> rfl

namespace Grammar

variable {ps : Tokens}

/-! ## Tokens and their spelling -/

/-- The tokens are spelled `out`, whatever follows them. -/
def Yields (ts : Tokens) (out : List Token) : Prop :=
  ∀ rest, dropTrailingCommas (ts.map (·.node) ++ rest) = out ++ dropTrailingCommas rest

private theorem dropTrailingCommas_cons {t : Token} (h : t ≠ .sign .comma)
    (ts : List Token) :
    dropTrailingCommas (t :: ts) = t :: dropTrailingCommas ts := by
  rw [dropTrailingCommas]
  rintro us rfl
  exact absurd rfl h

private theorem dropTrailingCommas_comma {ts : List Token}
    (h : ts.head? ≠ some (.sign .rparen)) :
    dropTrailingCommas (.sign .comma :: ts) =
      .sign .comma :: dropTrailingCommas ts := by
  rw [dropTrailingCommas]
  rintro us _ rfl
  exact absurd rfl h

private theorem Yields.nil : Yields [] [] :=
  fun _ => rfl

private theorem Yields.append {us : Tokens} {out' : List Token} (h : Yields ts out)
    (h' : Yields us out') :
    Yields (ts ++ us) (out ++ out') := by
  intro rest
  rw [map_append, append_assoc, h, h', append_assoc]

private theorem Yields.cons {t : Token} (ht : t ≠ .sign .comma) (h : Yields ts out) :
    Yields (⟨t, a⟩ :: ts) (t :: out) := by
  intro rest
  rw [map_cons, cons_append, dropTrailingCommas_cons ht, h]
  rfl

theorem Yields.word {k : Keyword} (h : Yields ts out) :
    Yields (⟨.word k, a⟩ :: ts) (.word k :: out) :=
  h.cons nofun

theorem Yields.ident {x : String} (h : Yields ts out) :
    Yields (⟨.ident x, a⟩ :: ts) (.ident x :: out) :=
  h.cons nofun

private theorem Yields.sign {s : Sign} (hs : s ≠ .comma) (h : Yields ts out) :
    Yields (⟨.sign s, a⟩ :: ts) (.sign s :: out) :=
  h.cons fun heq => hs (Token.sign.inj heq)

private theorem Yields.braced {b : Span} (h : Yields ts out) :
    Yields (braced a ts b) (.sign .lbrace :: (out ++ [.sign .rbrace])) :=
  .sign (by decide) (h.append (.sign (by decide) .nil))

/-- An item of a list: it has its spelling, and it does not start with a closing
parenthesis. -/
def Spelled {α : Type} (spell : α → List Token) (ts : Tokens) (_ : NodeId) (x : α)
    (_ : NodeId) :
    Prop :=
  Yields ts (spell x) ∧ ∃ t us, ts = t :: us ∧ t.node ≠ .sign .rparen

section Items

variable {α : Type} {spell : α → List Token} {ts : Tokens} {n m : NodeId} {xs : List α}

private theorem Spelled.head?_ne {x : α} (h : Spelled spell ts n x m)
    (rest : List Token) :
    (ts.map (·.node) ++ rest).head? ≠ some (.sign .rparen) := by
  obtain ⟨_, t, us, rfl, ht⟩ := h
  exact fun heq => ht (Option.some.inj heq)

private theorem Commaed.drop (h : Commaed (Spelled spell) ts n xs m) {rest : List Token}
    (hrest : rest.head? ≠ some (.sign .rparen)) :
    dropTrailingCommas (ts.map (·.node) ++ rest) =
      (xs.map spell).flatMap (· ++ [.sign .comma]) ++ dropTrailingCommas rest := by
  induction h generalizing rest with
  | nil => rfl
  | more _ hx ih =>
    have hhead := hx.head?_ne (.sign .comma :: rest)
    simp only [map_append, map_cons, map_nil, append_assoc,
      singleton_append, flatMap_append, flatMap_cons, flatMap_nil]
    rw [ih hhead, hx.1, dropTrailingCommas_comma hrest]

private theorem Comma.yields (h : Comma (Spelled spell) ts n xs m) :
    Yields (ts ++ [⟨.sign .rparen, a⟩])
      (commaSeparated (xs.map spell) ++ [.sign .rparen]) := by
  intro rest
  have hparen := dropTrailingCommas_cons (t := .sign .rparen) (by decide) rest
  cases h with
  | closed hxs =>
    cases hxs with
    | nil => exact hparen
    | more hxs hx =>
      have hhead := hx.head?_ne (.sign .comma :: .sign .rparen :: rest)
      simp only [map_append, map_cons, map_nil, append_assoc,
        cons_append, nil_append]
      rw [hxs.drop hhead, hx.1, commaSeparated_concat, dropTrailingCommas]
      simp
  | last hxs hx =>
    have hhead := hx.head?_ne (.sign .rparen :: rest)
    simp only [map_append, map_cons, map_nil, append_assoc,
      singleton_append]
    rw [hxs.drop hhead, hx.1, commaSeparated_concat, hparen]
    simp

end Items

/-! ## Expressions -/

private theorem token_ne_comma (op : Operator) : op.token ≠ .sign .comma := by
  rcases op with op | op <;> cases op <;> decide

theorem literal_ne_sign (v : Literal) (s : Sign) : v.token ≠ .sign s := by
  rcases v with v | v | b | _
  · exact nofun
  · exact nofun
  · cases b <;> exact nofun
  · exact nofun

private theorem Phrase.starts {rank : Rank} {ts : Tokens} {n m : NodeId} {e : Expr} :
    Phrase rank ts n e m → ∃ t us, ts = t :: us ∧ t.node ≠ .sign .rparen
  | .assign _ => ⟨_, _, rfl, nofun⟩
  | .set h _ => by
    obtain ⟨t, us, rfl, ht⟩ := h.starts
    exact ⟨t, _, rfl, ht⟩
  | .join _ h _ => by
    obtain ⟨t, us, rfl, ht⟩ := h.starts
    exact ⟨t, _, rfl, ht⟩
  | @Phrase.unary op _ _ _ _ _ _ => by
    refine ⟨_, _, rfl, ?_⟩
    cases op <;> exact nofun
  | .call h _ => by
    obtain ⟨t, us, rfl, ht⟩ := h.starts
    exact ⟨t, _, rfl, ht⟩
  | .get h => by
    obtain ⟨t, us, rfl, ht⟩ := h.starts
    exact ⟨t, _, rfl, ht⟩
  | .literal => ⟨_, _, rfl, literal_ne_sign _ _⟩
  | .this => ⟨_, _, rfl, nofun⟩
  | .super => ⟨_, _, rfl, nofun⟩
  | .var => ⟨_, _, rfl, nofun⟩
  | .grouping _ => ⟨_, _, rfl, nofun⟩
  | .climb _ h => h.starts

mutual

private theorem Phrase.yields {rank : Rank} {ts : Tokens} {n m : NodeId} {e : Expr} :
    Phrase rank ts n e m → Yields ts e.tokens
  | .assign h => .ident (.sign (by decide) h.yields)
  | .set h hv =>
    h.yields.append (.sign (by decide) (.ident (.sign (by decide) hv.yields)))
  | .join _ hl hr => by
    rw [Operator.tokens_join]
    exact hl.yields.append (.cons (token_ne_comma _) hr.yields)
  | @Phrase.unary op _ _ _ _ _ h => .sign (by cases op <;> decide) h.yields
  | .call h (.closed hargs) => by
    rw [Expr.tokens, Expr.listTokens_eq_map]
    exact h.yields.append (.sign (by decide) (Comma.closed hargs.spelled).yields)
  | .call h (.last hargs harg) => by
    have hspelled := Comma.last (k := m) hargs.spelled ⟨harg.yields, harg.starts⟩
    rw [Expr.tokens, Expr.listTokens_eq_map]
    exact h.yields.append (.sign (by decide) hspelled.yields)
  | .get h => h.yields.append (.sign (by decide) (.ident .nil))
  | .literal => .cons (literal_ne_sign _ _) .nil
  | .this => .word .nil
  | .super => .word (.sign (by decide) (.ident .nil))
  | .var => .ident .nil
  | .grouping h => .sign (by decide) (h.yields.append (.sign (by decide) .nil))
  | .climb _ h => h.yields

private theorem Commaed.spelled {ts : Tokens} {n m : NodeId} {args : List Expr} :
    Commaed (Phrase .assignment) ts n args m → Commaed (Spelled Expr.tokens) ts n args m
  | .nil => .nil
  | .more hargs harg => .more hargs.spelled ⟨harg.yields, harg.starts⟩

end

private theorem Optional.yields {operand : Option Expr}
    (h : Optional (Phrase .assignment) ts n operand m) :
    Yields ts (Expr.optionTokens operand) := by
  cases h with
  | none => exact .nil
  | some h => exact h.yields

/-! ## Statements -/

private theorem Named.spelled {param : Name} (h : Named ps n param m) :
    Spelled (fun param : Name => [.ident param.node]) ps n param m := by
  cases h with
  | mk => exact ⟨.ident .nil, _, _, rfl, nofun⟩

private theorem Commaed.spelled_params (h : Commaed Named ps n params m) :
    Commaed (Spelled fun param : Name => [.ident param.node]) ps n params m := by
  induction h with
  | nil => exact .nil
  | more _ hparam ih => exact .more ih hparam.spelled

private theorem Comma.yields_params (h : Comma Named ps n params m) :
    Yields (ps ++ [⟨.sign .rparen, a⟩])
      (commaSeparated (params.map fun param => [.ident param.node]) ++
        [.sign .rparen]) := by
  cases h with
  | closed hparams => exact (Comma.closed hparams.spelled_params).yields
  | last hparams hparam =>
    exact (Comma.last hparams.spelled_params hparam.spelled).yields

mutual

private theorem Declarations.yields {ts : Tokens} {n m : NodeId} {body : List Stmt} :
    Declarations ts n body m → Yields ts (Stmt.listTokens body)
  | .nil => .nil
  | .more hbody hs => by
    rw [Stmt.listTokens_append]
    exact hbody.yields.append (by simpa [Stmt.listTokens] using hs.yields)

private theorem Declaration.yields {ts : Tokens} {n m : NodeId} {s : Stmt} :
    Declaration ts n s m → Yields ts s.tokens
  | .function h => h.yields
  | .cls .none hms => .word (.ident (.sign (by decide) hms.yields.braced))
  | .cls .some hms =>
    .word (.ident (.sign (by decide) (.ident (.sign (by decide) hms.yields.braced))))
  | .statement h => h.yields

private theorem FunctionDeclaration.yields {ts : Tokens} {n m : NodeId}
    {decl : FunctionDecl} :
    FunctionDeclaration ts n decl m → Yields ts decl.tokens
  | .mk hps hbody => by
    refine .word (.ident (.sign (by decide) ?_))
    rw [append_cons, append_cons (commaSeparated _)]
    exact hps.yields_params.append (.sign (by decide) hbody.yields.braced)

private theorem Methods.yields {ts : Tokens} {n m : NodeId}
    {methods : List FunctionDecl} :
    Methods ts n methods m → Yields ts (FunctionDecl.listTokens methods)
  | .nil => .nil
  | .more hms hdecl => by
    rw [FunctionDecl.listTokens_append]
    exact hms.yields.append (by simpa [FunctionDecl.listTokens] using hdecl.yields)

private theorem Statement.yields {ts : Tokens} {n m : NodeId} {s : Stmt} :
    Statement ts n s m → Yields ts s.tokens
  | .var => .word (.ident (.sign (by decide) .nil))
  | .varInit h =>
    .word (.ident (.sign (by decide) (h.yields.append (.sign (by decide) .nil))))
  | .print h =>
    .word
      (.sign (by decide) (h.yields.append (.sign (by decide) (.sign (by decide) .nil))))
  | .ret h => .word (h.yields.append (.sign (by decide) .nil))
  | .brk => .word (.sign (by decide) .nil)
  | .conditional h => h.yields
  | .loop hcond hbody =>
    .word
      (.sign (by decide) (hcond.yields.append (.sign (by decide) hbody.yields.braced)))
  | .block hbody => hbody.yields.braced
  | .expression h => h.yields.append (.sign (by decide) .nil)

private theorem Conditional.yields {ts : Tokens} {n m : NodeId} {s : Stmt} :
    Conditional ts n s m → Yields ts s.tokens
  | .plain hcond hbody =>
    .word
      (.sign (by decide) (hcond.yields.append (.sign (by decide) hbody.yields.braced)))
  | .otherwise hcond hbody hother =>
    .word (.sign (by decide) (hcond.yields.append (.sign (by decide)
      (hbody.yields.braced.append (.word hother.yields.braced)))))
  | .chained hcond hbody h =>
    .word (.sign (by decide) (hcond.yields.append (.sign (by decide)
      (hbody.yields.braced.append (.word h.yields)))))

end

/-- A program's tokens, without the commas at the end of a list, spell its tree. -/
theorem Derives.tokens {firstId next : NodeId} {program : Program}
    (h : Derives firstId ts program next) :
    program.tokens = dropTrailingCommas (ts.map (·.node)) := by
  have hall := Declarations.yields h []
  rw [append_nil] at hall
  rw [hall]
  exact (append_nil _).symm

end Grammar

end Treewalk
