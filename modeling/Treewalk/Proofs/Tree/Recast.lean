import Treewalk.Tree.Layer

/-!
# Trees written anew

A recast gives every node a new number, and it may write `return;` for every `break;`.
All else of a tree stays: its names, its places and its shape. A renaming is a recast
that leaves `break;` alone (`Program.rename`), and a tree without its numbers is one in
which they are all the same (`Program.unnumbered`).
-/

namespace Treewalk

namespace Expr

variable (ρ : NodeId → NodeId)

mutual

/-- The expression with its nodes renamed. -/
def rename : Expr → Expr
  | assign span id name value => assign span (ρ id) name value.rename
  | binary span left op right => binary span left.rename op right.rename
  | call span id callee args => call span (ρ id) callee.rename (listRename args)
  | get span object name => get span object.rename name
  | grouping span inner => grouping span inner.rename
  | literal span value => literal span value
  | logical span left op right => logical span left.rename op right.rename
  | set span object name value => set span object.rename name value.rename
  | super span method => super span method
  | this span => this span
  | unary span op operand => unary span op operand.rename
  | var span id name => var span (ρ id) name

/-- Expressions with their nodes renamed. -/
def listRename : List Expr → List Expr
  | [] => []
  | expr :: rest => expr.rename :: listRename rest

end

@[simp] theorem listRename_eq_map (exprs : List Expr) :
    listRename ρ exprs = exprs.map (rename ρ) := by
  induction exprs with
  | nil => rfl
  | cons expr exprs ih => rw [listRename, ih, List.map_cons]

@[simp] theorem span_rename (expr : Expr) : (expr.rename ρ).span = expr.span := by
  cases expr <;> rfl

@[simp] theorem name?_rename (expr : Expr) : (expr.rename ρ).name? = expr.name? := by
  cases expr <;> rfl

end Expr

/-- A way to write trees anew. -/
structure Recast where
  /-- The new number of a node. -/
  id : NodeId → NodeId
  /-- Whether `return;` is written for `break;`. -/
  returns : Bool

namespace Recast

/-- Nodes get new numbers. -/
def ofRenaming (ρ : NodeId → NodeId) : Recast :=
  ⟨ρ, false⟩

@[simp] theorem id_ofRenaming (ρ : NodeId → NodeId) : (ofRenaming ρ).id = ρ :=
  rfl

/-- `return;` is written for `break;`, and nodes keep their numbers. -/
def returning : Recast :=
  ⟨fun id => id, true⟩

/-- What is written for `break;`. -/
def brk (c : Recast) (span : Span) : Stmt :=
  if c.returns then .ret span none else .brk span

@[simp] theorem brk_ofRenaming (ρ : NodeId → NodeId) (span : Span) :
    (ofRenaming ρ).brk span = .brk span :=
  rfl

end Recast

variable (c : Recast)

mutual

/-- The statement written anew. -/
def Stmt.recast : Stmt → Stmt
  | .block span body => .block span (Stmt.listRecast body)
  | .funcDecl span decl => .funcDecl span decl.recast
  | .classDecl span decl => .classDecl span decl.recast
  | .branch span cond onTrue none => .branch span (cond.rename c.id) onTrue.recast none
  | .branch span cond onTrue (some onFalse) =>
    .branch span (cond.rename c.id) onTrue.recast (some onFalse.recast)
  | .print span newline operand => .print span newline (operand.map (Expr.rename c.id))
  | .ret span operand => .ret span (operand.map (Expr.rename c.id))
  | .brk span => c.brk span
  | .var span name init => .var span name (init.map (Expr.rename c.id))
  | .loop span cond body => .loop span (cond.rename c.id) body.recast
  | .expression span expr => .expression span (expr.rename c.id)

/-- Statements written anew. -/
def Stmt.listRecast : List Stmt → List Stmt
  | [] => []
  | stmt :: rest => stmt.recast :: Stmt.listRecast rest

/-- The function written anew. -/
def FunctionDecl.recast : FunctionDecl → FunctionDecl
  | .mk name params body span => .mk name params (Stmt.listRecast body) span

/-- The class written anew. -/
def ClassDecl.recast : ClassDecl → ClassDecl
  | .mk name superclass methods span =>
    .mk name (superclass.map (Expr.rename c.id)) (FunctionDecl.listRecast methods) span

/-- Functions written anew. -/
def FunctionDecl.listRecast : List FunctionDecl → List FunctionDecl
  | [] => []
  | decl :: rest => decl.recast :: FunctionDecl.listRecast rest

end

/-- The program written anew. -/
def Program.recast (program : Program) : Program :=
  ⟨program.stmts.map (Stmt.recast c)⟩

@[simp] theorem Stmt.listRecast_eq_map (body : List Stmt) :
    Stmt.listRecast c body = body.map (Stmt.recast c) := by
  induction body with
  | nil => rfl
  | cons stmt body ih => rw [Stmt.listRecast, ih, List.map_cons]

@[simp] theorem FunctionDecl.listRecast_eq_map (decls : List FunctionDecl) :
    FunctionDecl.listRecast c decls = decls.map (FunctionDecl.recast c) := by
  induction decls with
  | nil => rfl
  | cons decl decls ih => rw [FunctionDecl.listRecast, ih, List.map_cons]

namespace FunctionDecl

variable (decl : FunctionDecl)

@[simp] theorem name_recast : (decl.recast c).name = decl.name := by
  cases decl
  rfl

@[simp] theorem params_recast : (decl.recast c).params = decl.params := by
  cases decl
  rfl

@[simp] theorem arity_recast : (decl.recast c).arity = decl.arity := by
  simp [arity]

@[simp] theorem body_recast : (decl.recast c).body = decl.body.map (Stmt.recast c) := by
  cases decl
  simp [recast, body]

end FunctionDecl

namespace ClassDecl

variable (decl : ClassDecl)

@[simp] theorem name_recast : (decl.recast c).name = decl.name := by
  cases decl
  rfl

@[simp] theorem superclass_recast :
    (decl.recast c).superclass = decl.superclass.map (Expr.rename c.id) := by
  cases decl
  rfl

@[simp] theorem methods_recast :
    (decl.recast c).methods = decl.methods.map (FunctionDecl.recast c) := by
  cases decl
  simp [recast, methods]

end ClassDecl

/-! ## Declarations -/

@[simp] theorem Stmt.isDeclaration_recast (stmt : Stmt) :
    (stmt.recast c).isDeclaration = stmt.isDeclaration := by
  cases stmt with
  | branch _ _ _ onFalse => cases onFalse <;> simp only [Stmt.recast, isDeclaration]
  | brk span =>
    simp only [Stmt.recast, Recast.brk]
    split <;> rfl
  | _ => simp only [Stmt.recast, isDeclaration]

/-! ## Renamings -/

/-- The program with its nodes renamed. -/
def Program.rename (ρ : NodeId → NodeId) (program : Program) : Program :=
  program.recast (.ofRenaming ρ)

/-- The expression with every number erased. -/
def Expr.unnumbered (expr : Expr) : Expr :=
  expr.rename fun _ => 0

/-- The program with every number erased. -/
def Program.unnumbered (program : Program) : Program :=
  program.rename fun _ => 0

section Twice

variable (ρ σ : NodeId → NodeId)

mutual

theorem Expr.rename_rename :
    ∀ expr : Expr, (expr.rename ρ).rename σ = expr.rename (σ ∘ ρ)
  | .assign _ _ _ value => by
    simp only [rename, value.rename_rename, Function.comp_apply]
  | .binary _ left _ right => by
    simp only [rename, left.rename_rename, right.rename_rename]
  | .call _ _ callee args => by
    simp only [rename, callee.rename_rename, Expr.listRename_listRename args,
      Function.comp_apply]
  | .get _ object _ => by simp only [rename, object.rename_rename]
  | .grouping _ inner => by simp only [rename, inner.rename_rename]
  | .literal .. => rfl
  | .logical _ left _ right => by
    simp only [rename, left.rename_rename, right.rename_rename]
  | .set _ object _ value => by
    simp only [rename, object.rename_rename, value.rename_rename]
  | .super .. => rfl
  | .this _ => rfl
  | .unary _ _ operand => by simp only [rename, operand.rename_rename]
  | .var .. => rfl

private theorem Expr.listRename_listRename : ∀ exprs : List Expr,
    listRename σ (listRename ρ exprs) = listRename (σ ∘ ρ) exprs
  | [] => rfl
  | expr :: rest => by
    simp only [listRename, expr.rename_rename, Expr.listRename_listRename rest]

end

private theorem Expr.rename_comp_rename : rename σ ∘ rename ρ = rename (σ ∘ ρ) :=
  funext (Expr.rename_rename ρ σ)

mutual

/-- Renaming twice renames by the composition. -/
theorem Stmt.recast_ofRenaming_recast : ∀ stmt : Stmt,
    (stmt.recast (.ofRenaming ρ)).recast (.ofRenaming σ) =
      stmt.recast (.ofRenaming (σ ∘ ρ))
  | .block _ body => by
    simp only [Stmt.recast, Stmt.listRecast_ofRenaming_recast body]
  | .funcDecl _ decl => by
    simp only [Stmt.recast, FunctionDecl.recast_ofRenaming_recast decl]
  | .classDecl _ (.mk _ _ methods _) => by
    simp only [Stmt.recast, ClassDecl.recast, Recast.id_ofRenaming, Option.map_map,
      Expr.rename_comp_rename, FunctionDecl.listRecast_ofRenaming_recast methods]
  | .branch _ _ onTrue none => by
    simp only [Stmt.recast, Recast.id_ofRenaming, Expr.rename_rename,
      Stmt.recast_ofRenaming_recast onTrue]
  | .branch _ _ onTrue (some onFalse) => by
    simp only [Stmt.recast, Recast.id_ofRenaming, Expr.rename_rename,
      Stmt.recast_ofRenaming_recast onTrue, Stmt.recast_ofRenaming_recast onFalse]
  | .print .. | .ret .. | .var .. => by
    simp only [Stmt.recast, Recast.id_ofRenaming, Option.map_map,
      Expr.rename_comp_rename]
  | .brk _ => by simp only [Stmt.recast, Recast.brk_ofRenaming]
  | .loop _ _ body => by
    simp only [Stmt.recast, Recast.id_ofRenaming, Expr.rename_rename,
      Stmt.recast_ofRenaming_recast body]
  | .expression .. => by
    simp only [Stmt.recast, Recast.id_ofRenaming, Expr.rename_rename]

private theorem Stmt.listRecast_ofRenaming_recast : ∀ body : List Stmt,
    Stmt.listRecast (.ofRenaming σ) (Stmt.listRecast (.ofRenaming ρ) body) =
      Stmt.listRecast (.ofRenaming (σ ∘ ρ)) body
  | [] => by simp only [Stmt.listRecast]
  | stmt :: rest => by
    simp only [Stmt.listRecast, Stmt.recast_ofRenaming_recast stmt,
      Stmt.listRecast_ofRenaming_recast rest]

private theorem FunctionDecl.recast_ofRenaming_recast : ∀ decl : FunctionDecl,
    (decl.recast (.ofRenaming ρ)).recast (.ofRenaming σ) =
      decl.recast (.ofRenaming (σ ∘ ρ))
  | .mk _ _ body _ => by
    simp only [FunctionDecl.recast, Stmt.listRecast_ofRenaming_recast body]

private theorem FunctionDecl.listRecast_ofRenaming_recast : ∀ decls : List FunctionDecl,
    FunctionDecl.listRecast (.ofRenaming σ)
      (FunctionDecl.listRecast (.ofRenaming ρ) decls) =
      FunctionDecl.listRecast (.ofRenaming (σ ∘ ρ)) decls
  | [] => by simp only [FunctionDecl.listRecast]
  | decl :: rest => by
    simp only [FunctionDecl.listRecast, FunctionDecl.recast_ofRenaming_recast decl,
      FunctionDecl.listRecast_ofRenaming_recast rest]

end

theorem Program.rename_rename (program : Program) :
    (program.rename ρ).rename σ = program.rename (σ ∘ ρ) := by
  simp only [rename, recast, List.map_map]
  exact congrArg (fun f => Program.mk (program.stmts.map f))
    (funext (Stmt.recast_ofRenaming_recast ρ σ))

end Twice

end Treewalk
