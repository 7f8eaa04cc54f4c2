import Treewalk.Proofs.Tree.Complete
import Treewalk.Proofs.Tree.Numbering
import Treewalk.Proofs.Tree.Recast
import Treewalk.Proofs.Tree.Sound

/-!
# Renaming nodes

A renaming `ρ` gives every node a new number and leaves all else of a tree as it is. The
tree of a text whose numbers start `k` later is a renaming of the tree whose numbers
start earlier, by any `ρ` that adds `k` to the numbers that the text draws
(`parse_rename`).
-/

namespace Treewalk

open List

variable {program : Program} {n m : NodeId} {params : List Name}

/-! ## Trees that keep their numbers -/

section Fixed

variable {ρ : NodeId → NodeId}

mutual

private theorem Expr.rename_of_fixed :
    ∀ {expr : Expr}, (∀ id ∈ expr.ids, ρ id = id) → expr.rename ρ = expr
  | .assign _ id _ value, h => by
    obtain ⟨hvalue, hid⟩ := forall_mem_append.1 h
    rw [Expr.rename, Expr.rename_of_fixed hvalue, hid id (mem_singleton_self id)]
  | .binary _ left _ right, h => by
    obtain ⟨hleft, hright⟩ := forall_mem_append.1 h
    rw [Expr.rename, Expr.rename_of_fixed hleft, Expr.rename_of_fixed hright]
  | .call _ id callee args, h => by
    obtain ⟨hcallee, hrest⟩ := forall_mem_append.1 h
    obtain ⟨hargs, hid⟩ := forall_mem_append.1 hrest
    rw [Expr.rename, Expr.rename_of_fixed hcallee, Expr.listRename_of_fixed hargs,
      hid id (mem_singleton_self id)]
  | .get _ object _, h => by rw [Expr.rename, object.rename_of_fixed h]
  | .grouping _ inner, h => by rw [Expr.rename, inner.rename_of_fixed h]
  | .literal .., _ => rfl
  | .logical _ left _ right, h => by
    obtain ⟨hleft, hright⟩ := forall_mem_append.1 h
    rw [Expr.rename, Expr.rename_of_fixed hleft, Expr.rename_of_fixed hright]
  | .set _ object _ value, h => by
    obtain ⟨hobject, hvalue⟩ := forall_mem_append.1 h
    rw [Expr.rename, Expr.rename_of_fixed hobject, Expr.rename_of_fixed hvalue]
  | .super .., _ => rfl
  | .this _, _ => rfl
  | .unary _ _ operand, h => by rw [Expr.rename, operand.rename_of_fixed h]
  | .var _ id _, h => by rw [Expr.rename, h id (mem_singleton_self id)]

private theorem Expr.listRename_of_fixed :
    ∀ {exprs : List Expr}, (∀ id ∈ Expr.listIds exprs, ρ id = id) →
    Expr.listRename ρ exprs = exprs
  | [], _ => rfl
  | expr :: rest, h => by
    obtain ⟨hexpr, hrest⟩ := forall_mem_append.1 h
    rw [Expr.listRename, Expr.rename_of_fixed hexpr, Expr.listRename_of_fixed hrest]

end

private theorem Expr.map_rename_of_fixed {expr : Option Expr}
    (h : ∀ id ∈ Expr.optionIds expr, ρ id = id) :
    expr.map (Expr.rename ρ) = expr := by
  cases expr with
  | none => rfl
  | some expr => exact congrArg some (Expr.rename_of_fixed h)

mutual

/-- A renaming that keeps the numbers of a statement keeps the statement. -/
theorem Stmt.recast_of_fixed :
    ∀ {stmt : Stmt}, (∀ id ∈ stmt.ids, ρ id = id) → stmt.recast (.ofRenaming ρ) = stmt
  | .block _ body, h => congrArg (Stmt.block _) (Stmt.listRecast_of_fixed h)
  | .funcDecl _ decl, h => congrArg (Stmt.funcDecl _) (FunctionDecl.recast_of_fixed h)
  | .classDecl _ decl, h => congrArg (Stmt.classDecl _) (ClassDecl.recast_of_fixed h)
  | .branch _ cond onTrue none, h => by
    obtain ⟨hcond, htrue⟩ := forall_mem_append.1 h
    rw [Stmt.recast, Recast.id_ofRenaming, Expr.rename_of_fixed hcond,
      Stmt.recast_of_fixed htrue]
  | .branch _ cond onTrue (some onFalse), h => by
    obtain ⟨hcond, hrest⟩ := forall_mem_append.1 h
    obtain ⟨htrue, hfalse⟩ := forall_mem_append.1 hrest
    rw [Stmt.recast, Recast.id_ofRenaming, Expr.rename_of_fixed hcond,
      Stmt.recast_of_fixed htrue, Stmt.recast_of_fixed hfalse]
  | .print .., h => congrArg (Stmt.print _ _) (Expr.map_rename_of_fixed h)
  | .ret .., h => congrArg (Stmt.ret _) (Expr.map_rename_of_fixed h)
  | .brk _, _ => rfl
  | .var .., h => congrArg (Stmt.var _ _) (Expr.map_rename_of_fixed h)
  | .loop _ cond body, h => by
    obtain ⟨hcond, hbody⟩ := forall_mem_append.1 h
    rw [Stmt.recast, Recast.id_ofRenaming, Expr.rename_of_fixed hcond,
      Stmt.recast_of_fixed hbody]
  | .expression .., h => congrArg (Stmt.expression _) (Expr.rename_of_fixed h)

theorem Stmt.listRecast_of_fixed :
    ∀ {body : List Stmt}, (∀ id ∈ Stmt.listIds body, ρ id = id) →
    Stmt.listRecast (.ofRenaming ρ) body = body
  | [], _ => rfl
  | stmt :: rest, h => by
    obtain ⟨hstmt, hrest⟩ := forall_mem_append.1 h
    rw [Stmt.listRecast, Stmt.recast_of_fixed hstmt, Stmt.listRecast_of_fixed hrest]

private theorem FunctionDecl.recast_of_fixed :
    ∀ {decl : FunctionDecl}, (∀ id ∈ decl.ids, ρ id = id) →
    decl.recast (.ofRenaming ρ) = decl
  | .mk .., h => by rw [FunctionDecl.recast, Stmt.listRecast_of_fixed h]

private theorem ClassDecl.recast_of_fixed :
    ∀ {decl : ClassDecl}, (∀ id ∈ decl.ids, ρ id = id) →
    decl.recast (.ofRenaming ρ) = decl
  | .mk .., h => by
    obtain ⟨hsuperclass, hmethods⟩ := forall_mem_append.1 h
    rw [ClassDecl.recast, Recast.id_ofRenaming, Expr.map_rename_of_fixed hsuperclass,
      FunctionDecl.listRecast_of_fixed hmethods]

private theorem FunctionDecl.listRecast_of_fixed : ∀ {decls : List FunctionDecl},
    (∀ id ∈ FunctionDecl.listIds decls, ρ id = id) →
      FunctionDecl.listRecast (.ofRenaming ρ) decls = decls
  | [], _ => rfl
  | decl :: rest, h => by
    obtain ⟨hdecl, hrest⟩ := forall_mem_append.1 h
    rw [FunctionDecl.listRecast, FunctionDecl.recast_of_fixed hdecl,
      FunctionDecl.listRecast_of_fixed hrest]

end

theorem Program.rename_of_fixed (h : ∀ id ∈ program.ids, ρ id = id) :
    program.rename ρ = program := by
  rw [Program.rename, Program.recast, ← Stmt.listRecast_eq_map,
    Stmt.listRecast_of_fixed h]

end Fixed

namespace Grammar

variable {ts : Tokens}

/-! ## Numbering from elsewhere -/

variable {ρ σ : NodeId → NodeId} {k : Nat}

/-- From `n` up to `m`, `m` excluded, the renaming gives the numbers that `σ` counts
up. -/
def Renumbers (ρ σ : NodeId → NodeId) (n m : Nat) : Prop :=
  ∀ i, n ≤ i → i < m → ρ i = σ i ∧ σ (i + 1) = σ i + 1

namespace Renumbers

variable {n m l : Nat}

private theorem left (h : Renumbers ρ σ n l) (hm : m ≤ l) : Renumbers ρ σ n m :=
  fun i hn hi => h i hn (Nat.lt_of_lt_of_le hi hm)

private theorem right (h : Renumbers ρ σ n l) (hn : n ≤ m) : Renumbers ρ σ m l :=
  fun i hm hi => h i (Nat.le_trans hn hm) hi

private theorem last (h : Renumbers ρ σ n (m + 1)) (hn : n ≤ m) :
    ρ m = σ m ∧ σ (m + 1) = σ m + 1 :=
  h m hn (Nat.lt_succ_self m)

end Renumbers

private theorem Operator.rename_join (op : Operator) (left right : Expr) :
    (op.join left right).rename ρ = op.join (left.rename ρ) (right.rename ρ) := by
  cases op <;> simp [Operator.join, Expr.rename]

mutual

private theorem Phrase.renamed {rank : Rank} {ts : Tokens} {n m : NodeId} {e : Expr} :
    Phrase rank ts n e m → Renumbers ρ σ n m → Phrase rank ts (σ n) (e.rename ρ) (σ m)
  | @Phrase.assign x a b ts n v m h, hρ => by
    obtain ⟨hid, hnext⟩ := hρ.last h.counts.1
    rw [Expr.rename, hid, hnext]
    exact .assign (h.renamed (hρ.left (Nat.le_succ m)))
  | .set h hv, hρ =>
    .set (h.renamed (hρ.left hv.counts.1)) (hv.renamed (hρ.right h.counts.1))
  | .join ht hl hr, hρ => by
    rw [Operator.rename_join]
    exact .join ht (hl.renamed (hρ.left hr.counts.1))
      (hr.renamed (hρ.right hl.counts.1))
  | .unary h, hρ => .unary (h.renamed hρ)
  | @Phrase.call _ _ _ _ l _ _ _ _ h (.closed hargs), hρ => by
    have hle := h.counts.1
    have hle' := hargs.counts.1
    obtain ⟨hid, hnext⟩ := hρ.last (Nat.le_trans hle hle')
    rw [Expr.rename, hid, hnext, Expr.listRename_eq_map]
    have hρ := hρ.left (Nat.le_succ l)
    exact .call (h.renamed (hρ.left hle')) (.closed (hargs.renamed (hρ.right hle)))
  | @Phrase.call _ _ _ m l _ _ _ _ h (.last hargs harg), hρ => by
    have hle := h.counts.1
    have hmid := hargs.counts.1
    have hlast := harg.counts.1
    have hle' : m ≤ l := Nat.le_trans hmid hlast
    obtain ⟨hid, hnext⟩ := hρ.last (Nat.le_trans hle hle')
    rw [Expr.rename, hid, hnext, Expr.listRename_eq_map, map_append]
    have hρ := hρ.left (Nat.le_succ l)
    have hρargs := hρ.right hle
    exact .call (h.renamed (hρ.left hle'))
      (.last (hargs.renamed (hρargs.left hlast)) (harg.renamed (hρargs.right hmid)))
  | .get h, hρ => .get (h.renamed hρ)
  | .literal, _ => .literal
  | .this, _ => .this
  | .super, _ => .super
  | @Phrase.var x a n, hρ => by
    obtain ⟨hid, hnext⟩ := hρ.last (Nat.le_refl n)
    rw [Expr.rename, hid, hnext]
    exact .var
  | .grouping h, hρ => .grouping (h.renamed hρ)
  | .climb ht h, hρ => .climb ht (h.renamed hρ)

private theorem Commaed.renamed {ts : Tokens} {n m : NodeId} {args : List Expr} :
    Commaed (Phrase .assignment) ts n args m → Renumbers ρ σ n m →
      Commaed (Phrase .assignment) ts (σ n) (args.map (Expr.rename ρ)) (σ m)
  | .nil, _ => .nil
  | .more hargs harg, hρ => by
    rw [map_append]
    exact .more (hargs.renamed (hρ.left harg.counts.1))
      (harg.renamed (hρ.right hargs.counts.1))

end

private theorem Optional.renamed {ts : Tokens} {operand : Option Expr}
    (h : Optional (Phrase .assignment) ts n operand m) (hρ : Renumbers ρ σ n m) :
    Optional (Phrase .assignment) ts (σ n) (operand.map (Expr.rename ρ)) (σ m) := by
  cases h with
  | none => exact .none
  | some h => exact .some (h.renamed hρ)

private theorem Superclass.renamed {superclass : Option Expr}
    (h : Superclass ts n superclass m) (hρ : Renumbers ρ σ n m) :
    Superclass ts (σ n) (superclass.map (Expr.rename ρ)) (σ m) := by
  cases h with
  | none => exact .none
  | some =>
    obtain ⟨hid, hnext⟩ := hρ.last (Nat.le_refl n)
    rw [Option.map_some, Expr.rename, hid, hnext]
    exact .some

private theorem Commaed.renumber_named {ps : Tokens} (h : Commaed Named ps n params m)
    (n' : NodeId) :
    Commaed Named ps n' params n' := by
  induction h with
  | nil => exact .nil
  | more _ hparam ih =>
    cases hparam
    exact .more ih .mk

private theorem Comma.renumber_named {ps : Tokens} (h : Comma Named ps n params m)
    (n' : NodeId) :
    Comma Named ps n' params n' := by
  cases h with
  | closed hparams => exact .closed (hparams.renumber_named n')
  | last hparams hparam =>
    cases hparam
    exact .last (hparams.renumber_named n') .mk

mutual

theorem Declarations.renamed {ts : Tokens} {n m : NodeId} {body : List Stmt} :
    Declarations ts n body m → Renumbers ρ σ n m →
      Declarations ts (σ n) (body.map (Stmt.recast (.ofRenaming ρ))) (σ m)
  | .nil, _ => .nil
  | .more hbody hs, hρ => by
    rw [map_append]
    exact .more (hbody.renamed (hρ.left hs.counts.1))
      (hs.renamed (hρ.right hbody.counts.1))

private theorem Declaration.renamed {ts : Tokens} {n m : NodeId} {s : Stmt} :
    Declaration ts n s m → Renumbers ρ σ n m →
      Declaration ts (σ n) (s.recast (.ofRenaming ρ)) (σ m)
  | .function h, hρ => by
    rw [Stmt.recast]
    exact .function (h.renamed hρ)
  | .cls hss hms, hρ => by
    rw [Stmt.recast, ClassDecl.recast, FunctionDecl.listRecast_eq_map]
    exact .cls (hss.renamed (hρ.left hms.counts.1))
      (hms.renamed (hρ.right hss.counts.1))
  | .statement h, hρ => .statement (h.renamed hρ)

private theorem FunctionDeclaration.renamed {ts : Tokens} {n m : NodeId}
    {decl : FunctionDecl} :
    FunctionDeclaration ts n decl m → Renumbers ρ σ n m →
      FunctionDeclaration ts (σ n) (decl.recast (.ofRenaming ρ)) (σ m)
  | .mk hps hbody, hρ => by
    rw [FunctionDecl.recast, Stmt.listRecast_eq_map]
    have hbody' := hbody.renamed (hps.eq_of_named ▸ hρ)
    rw [← hps.eq_of_named] at hbody'
    exact .mk (hps.renumber_named _) hbody'

private theorem Methods.renamed {ts : Tokens} {n m : NodeId}
    {methods : List FunctionDecl} :
    Methods ts n methods m → Renumbers ρ σ n m →
      Methods ts (σ n) (methods.map (FunctionDecl.recast (.ofRenaming ρ))) (σ m)
  | .nil, _ => .nil
  | .more hms hdecl, hρ => by
    rw [map_append]
    exact .more (hms.renamed (hρ.left hdecl.counts.1))
      (hdecl.renamed (hρ.right hms.counts.1))

private theorem Statement.renamed {ts : Tokens} {n m : NodeId} {s : Stmt} :
    Statement ts n s m → Renumbers ρ σ n m →
      Statement ts (σ n) (s.recast (.ofRenaming ρ)) (σ m)
  | .var, _ => by
    rw [Stmt.recast]
    exact .var
  | .varInit h, hρ => by
    rw [Stmt.recast]
    exact .varInit (h.renamed hρ)
  | .print h, hρ => by
    rw [Stmt.recast]
    exact .print (h.renamed hρ)
  | .ret h, hρ => by
    rw [Stmt.recast]
    exact .ret (h.renamed hρ)
  | .brk, _ => by
    rw [Stmt.recast]
    exact .brk
  | .conditional h, hρ => .conditional (h.renamed hρ)
  | .loop hcond hbody, hρ => by
    rw [Stmt.recast, Stmt.recast, Stmt.listRecast_eq_map]
    exact .loop (hcond.renamed (hρ.left hbody.counts.1))
      (hbody.renamed (hρ.right hcond.counts.1))
  | .block hbody, hρ => by
    rw [Stmt.recast, Stmt.listRecast_eq_map]
    exact .block (hbody.renamed hρ)
  | .expression h, hρ => by
    rw [Stmt.recast]
    exact .expression (h.renamed hρ)

private theorem Conditional.renamed {ts : Tokens} {n m : NodeId} {s : Stmt} :
    Conditional ts n s m → Renumbers ρ σ n m →
      Conditional ts (σ n) (s.recast (.ofRenaming ρ)) (σ m)
  | .plain hcond hbody, hρ => by
    rw [Stmt.recast, Stmt.recast, Stmt.listRecast_eq_map]
    exact .plain (hcond.renamed (hρ.left hbody.counts.1))
      (hbody.renamed (hρ.right hcond.counts.1))
  | .otherwise hcond hbody hother, hρ => by
    rw [Stmt.recast, Stmt.recast, Stmt.recast, Stmt.listRecast_eq_map,
      Stmt.listRecast_eq_map]
    have hle := hother.counts.1
    have hρrest := hρ.right hcond.counts.1
    exact .otherwise (hcond.renamed (hρ.left (Nat.le_trans hbody.counts.1 hle)))
      (hbody.renamed (hρrest.left hle)) (hother.renamed (hρrest.right hbody.counts.1))
  | .chained hcond hbody h, hρ => by
    rw [Stmt.recast, Stmt.recast, Stmt.listRecast_eq_map]
    have hle := h.counts.1
    have hρrest := hρ.right hcond.counts.1
    exact .chained (hcond.renamed (hρ.left (Nat.le_trans hbody.counts.1 hle)))
      (hbody.renamed (hρrest.left hle)) (h.renamed (hρrest.right hbody.counts.1))

end

/-- The renaming that counts up from `n'` where numbers were counted up from `n`. -/
def startingAt (n n' : Nat) (i : Nat) : Nat :=
  n' + (i - n)

private theorem startingAt_self (n n' : Nat) : startingAt n n' n = n' := by
  rw [startingAt, Nat.sub_self, Nat.add_zero]

private theorem renumbers_startingAt (n n' m : Nat) :
    Renumbers (startingAt n n') (startingAt n n') n m :=
  fun i hn _ => ⟨rfl, by rw [startingAt, startingAt, Nat.succ_sub hn]; rfl⟩

/-- The tokens of an expression can be numbered from anywhere, and only the numbers
differ. -/
theorem Phrase.renumber {rank : Rank} {e : Expr} (h : Phrase rank ts n e m)
    (n' : NodeId) :
    ∃ e' m', Phrase rank ts n' e' m' ∧ e'.unnumbered = e.unnumbered := by
  have hrenamed := h.renamed (renumbers_startingAt n n' m)
  rw [startingAt_self] at hrenamed
  exact ⟨_, _, hrenamed, e.rename_rename _ _⟩

/-- The tokens of a program can be numbered from anywhere, and only the numbers
differ. -/
theorem Derives.renumber {firstId next : NodeId} (h : Derives firstId ts program next)
    (n : NodeId) :
    ∃ program' next', Derives n ts program' next' ∧
      program'.unnumbered = program.unnumbered := by
  have hrenamed := Declarations.renamed h (renumbers_startingAt firstId n next)
  rw [startingAt_self] at hrenamed
  exact ⟨⟨_⟩, _, hrenamed, program.rename_rename _ _⟩

/-- The renaming adds `k` to the numbers from `n` up to `m`, `m` excluded. -/
def Shifts (ρ : NodeId → NodeId) (k n m : Nat) : Prop :=
  ∀ i, n ≤ i → i < m → ρ i = k + i

end Grammar

/-- A text read with later numbers gives the renamed program. -/
theorem parse_rename {ρ : NodeId → NodeId} {k next : NodeId}
    {tokens : List (Located Token)} (h : parse n tokens = (.ok program, next))
    (hρ : Grammar.Shifts ρ k n next) :
    parse (k + n) tokens = (.ok (program.rename ρ), k + next) :=
  parse_of_derives
    (Grammar.Declarations.renamed (derives_of_parse h) fun i hn hi => ⟨hρ i hn hi, rfl⟩)

end Treewalk
