import Treewalk.Proofs.Tree.Grammar

/-!
# Node numbers

A derivation numbers its nodes in the order in which they are finished: the numbers of
the tree from left to right, parts before wholes, are consecutive from the first one on
(`Grammar.Derives.ids`). So no two nodes of a program share a number.
-/

namespace Treewalk

variable {ts : Tokens} {n m : NodeId} {params : List Name}

/-! ## Numbers of a tree -/

namespace Expr

mutual

/-- The numbers in an expression, parts before wholes. -/
def ids : Expr → List NodeId
  | assign _ id _ value => value.ids ++ [id]
  | binary _ left _ right => left.ids ++ right.ids
  | call _ id callee args => callee.ids ++ (listIds args ++ [id])
  | get _ object _ => object.ids
  | grouping _ inner => inner.ids
  | literal .. => []
  | logical _ left _ right => left.ids ++ right.ids
  | set _ object _ value => object.ids ++ value.ids
  | super .. => []
  | this _ => []
  | unary _ _ operand => operand.ids
  | var _ id _ => [id]

/-- The numbers in expressions, from first to last. -/
def listIds : List Expr → List NodeId
  | [] => []
  | expr :: rest => expr.ids ++ listIds rest

end

/-- The numbers in an expression that may be absent. -/
def optionIds : Option Expr → List NodeId
  | none => []
  | some expr => expr.ids

private theorem listIds_append (exprs exprs' : List Expr) :
    listIds (exprs ++ exprs') = listIds exprs ++ listIds exprs' := by
  induction exprs with
  | nil => rfl
  | cons expr exprs ih => simp [listIds, ih]

end Expr

mutual

/-- The numbers in a statement. -/
def Stmt.ids : Stmt → List NodeId
  | .block _ body => Stmt.listIds body
  | .funcDecl _ decl => decl.ids
  | .classDecl _ decl => decl.ids
  | .branch _ cond onTrue none => cond.ids ++ onTrue.ids
  | .branch _ cond onTrue (some onFalse) => cond.ids ++ (onTrue.ids ++ onFalse.ids)
  | .print _ _ operand => Expr.optionIds operand
  | .ret _ operand => Expr.optionIds operand
  | .brk _ => []
  | .var _ _ init => Expr.optionIds init
  | .loop _ cond body => cond.ids ++ body.ids
  | .expression _ expr => expr.ids

/-- The numbers in statements, from first to last. -/
def Stmt.listIds : List Stmt → List NodeId
  | [] => []
  | stmt :: rest => stmt.ids ++ Stmt.listIds rest

/-- The numbers in a function. -/
def FunctionDecl.ids : FunctionDecl → List NodeId
  | .mk _ _ body _ => Stmt.listIds body

/-- The numbers in a class. -/
def ClassDecl.ids : ClassDecl → List NodeId
  | .mk _ superclass methods _ =>
    Expr.optionIds superclass ++ FunctionDecl.listIds methods

/-- The numbers in functions, from first to last. -/
def FunctionDecl.listIds : List FunctionDecl → List NodeId
  | [] => []
  | decl :: rest => decl.ids ++ FunctionDecl.listIds rest

end

/-- The numbers in a program. -/
def Program.ids (program : Program) : List NodeId :=
  Stmt.listIds program.stmts

private theorem Stmt.listIds_append (body body' : List Stmt) :
    Stmt.listIds (body ++ body') = Stmt.listIds body ++ Stmt.listIds body' := by
  induction body with
  | nil => rfl
  | cons s body ih => simp [Stmt.listIds, ih]

private theorem FunctionDecl.listIds_append (decls decls' : List FunctionDecl) :
    FunctionDecl.listIds (decls ++ decls') =
      FunctionDecl.listIds decls ++ FunctionDecl.listIds decls' := by
  induction decls with
  | nil => rfl
  | cons decl decls ih => simp [FunctionDecl.listIds, ih]

namespace Grammar

/-! ## Numbers are consecutive -/

/-- The numbers are those from `n` up to `m`, `m` excluded, in order. -/
def Counts (ids : List Nat) (n m : Nat) : Prop :=
  n ≤ m ∧ ids = List.range' n (m - n)

namespace Counts

variable {ids ids' : List Nat} {n m k : Nat}

private theorem nil : Counts [] n n :=
  ⟨Nat.le_refl n, by rw [Nat.sub_self]; rfl⟩

private theorem single : Counts [n] n (n + 1) :=
  ⟨Nat.le_succ n, by rw [Nat.add_sub_cancel_left]; rfl⟩

private theorem append (h : Counts ids n m) (h' : Counts ids' m k) :
    Counts (ids ++ ids') n k := by
  obtain ⟨hnm, rfl⟩ := h
  obtain ⟨hmk, rfl⟩ := h'
  have hsum : m - n + (k - m) = k - n := by omega
  have hmid : n + (m - n) = m := by omega
  have hrange := List.range'_append_1 (s := n) (m := m - n) (n := k - m)
  rw [hmid, hsum] at hrange
  exact ⟨Nat.le_trans hnm hmk, hrange⟩

theorem nodup (h : Counts ids n m) : ids.Nodup := by
  rw [h.2]
  exact List.nodup_range'

end Counts

theorem Operator.ids_join (op : Operator) (left right : Expr) :
    (op.join left right).ids = left.ids ++ right.ids := by
  cases op <;> rfl

mutual

theorem Phrase.counts {rank : Rank} {ts : Tokens} {n m : NodeId} {e : Expr} :
    Phrase rank ts n e m → Counts e.ids n m
  | .assign h => h.counts.append .single
  | .set h hv => h.counts.append hv.counts
  | .join _ hl hr => by
    rw [Operator.ids_join]
    exact hl.counts.append hr.counts
  | .unary h => h.counts
  | .call h (.closed hargs) => h.counts.append (hargs.counts.append .single)
  | .call h (.last hargs harg) => by
    have hall := hargs.counts.append harg.counts
    rw [Expr.ids, Expr.listIds_append]
    exact h.counts.append (.append (by simpa [Expr.listIds] using hall) .single)
  | .get h => h.counts
  | .literal => .nil
  | .this => .nil
  | .super => .nil
  | .var => .single
  | .grouping h => h.counts
  | .climb _ h => h.counts

theorem Commaed.counts {ts : Tokens} {n m : NodeId} {args : List Expr} :
    Commaed (Phrase .assignment) ts n args m → Counts (Expr.listIds args) n m
  | .nil => .nil
  | .more hargs harg => by
    have hall := hargs.counts.append harg.counts
    rw [Expr.listIds_append]
    simpa [Expr.listIds] using hall

end

private theorem Optional.counts {operand : Option Expr}
    (h : Optional (Phrase .assignment) ts n operand m) :
    Counts (Expr.optionIds operand) n m := by
  cases h with
  | none => exact .nil
  | some h => exact h.counts

theorem Superclass.counts {superclass : Option Expr}
    (h : Superclass ts n superclass m) :
    Counts (Expr.optionIds superclass) n m := by
  cases h with
  | none => exact .nil
  | some => exact .single

private theorem Commaed.eq_of_named {ps : Tokens} (h : Commaed Named ps n params m) :
    n = m := by
  induction h with
  | nil => rfl
  | more _ hparam ih =>
    cases hparam
    exact ih

/-- Parameters draw no numbers. -/
theorem Comma.eq_of_named {ps : Tokens} (h : Comma Named ps n params m) : n = m := by
  cases h with
  | closed hparams => exact hparams.eq_of_named
  | last hparams hparam =>
    cases hparam
    exact hparams.eq_of_named

mutual

theorem Declarations.counts {ts : Tokens} {n m : NodeId} {body : List Stmt} :
    Declarations ts n body m → Counts (Stmt.listIds body) n m
  | .nil => .nil
  | .more hbody hs => by
    have hall := hbody.counts.append hs.counts
    rw [Stmt.listIds_append]
    simpa [Stmt.listIds] using hall

theorem Declaration.counts {ts : Tokens} {n m : NodeId} {s : Stmt} :
    Declaration ts n s m → Counts s.ids n m
  | .function h => h.counts
  | .cls hss hms => hss.counts.append hms.counts
  | .statement h => h.counts

theorem FunctionDeclaration.counts {ts : Tokens} {n m : NodeId} {decl : FunctionDecl} :
    FunctionDeclaration ts n decl m → Counts decl.ids n m
  | .mk hps hbody => hps.eq_of_named ▸ hbody.counts

theorem Methods.counts {ts : Tokens} {n m : NodeId} {methods : List FunctionDecl} :
    Methods ts n methods m → Counts (FunctionDecl.listIds methods) n m
  | .nil => .nil
  | .more hms hdecl => by
    have hall := hms.counts.append hdecl.counts
    rw [FunctionDecl.listIds_append]
    simpa [FunctionDecl.listIds] using hall

private theorem Statement.counts {ts : Tokens} {n m : NodeId} {s : Stmt} :
    Statement ts n s m → Counts s.ids n m
  | .var => .nil
  | .varInit h => h.counts
  | .print h => h.counts
  | .ret h => h.counts
  | .brk => .nil
  | .conditional h => h.counts
  | .loop hcond hbody => hcond.counts.append hbody.counts
  | .block hbody => hbody.counts
  | .expression h => h.counts

theorem Conditional.counts {ts : Tokens} {n m : NodeId} {s : Stmt} :
    Conditional ts n s m → Counts s.ids n m
  | .plain hcond hbody => hcond.counts.append hbody.counts
  | .otherwise hcond hbody hother =>
    hcond.counts.append (hbody.counts.append hother.counts)
  | .chained hcond hbody h => hcond.counts.append (hbody.counts.append h.counts)

end

/-- The nodes of a program are numbered consecutively from the first number on. -/
theorem Derives.ids {firstId next : NodeId} {program : Program}
    (h : Derives firstId ts program next) :
    Counts program.ids firstId next :=
  Declarations.counts h

end Grammar

end Treewalk
