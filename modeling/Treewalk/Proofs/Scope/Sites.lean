import Treewalk.Proofs.Tree.Numbering
import Treewalk.Scope.Notes

/-!
# The places where a program mentions names

The scopes that are open at a place of a program are its `Regions`: each `Region` knows
what opened it (`Origin`) and which names are declared in it so far. A `Site` is a place
that reads, assigns or declares a name, or that calls something, together with the
regions around it. Top-level code stands in no region.

A parsed tree has a shape that keeps scopes apart (`Stmt.formed`): the body of an `if`
or `while` is a block, so it declares nothing around itself.

## Main results

* `Grammar.Derives.formed`: a derived tree has that shape.
* `Stmt.ids_sites`: the sites of a tree have the numbers of the tree, in order.
-/

namespace Treewalk

open List

/-! ## Regions -/

/-- What opens a scope. -/
inductive Origin where
  /-- Nothing: the outermost scope is there from the start. -/
  | globals
  /-- A block. -/
  | block (span : Span) (body : List Stmt)
  /-- A call of a function or method. -/
  | call (decl : FunctionDecl)
  /-- The binding of a method to its receiver. -/
  | receiver (method : FunctionDecl)
  /-- The declaration of a class that has a superclass. -/
  | superclass (decl : ClassDecl)

/-- An open scope with the names declared in it so far. -/
structure Region where
  origin : Origin
  names : List String

/-- The open scopes at a place, the innermost first. -/
abbrev Regions := List Region

namespace Regions

/-- Adds names to the innermost region. -/
def declare (names : List String) : Regions → Regions
  | [] => []
  | region :: outer => ⟨region.origin, names ++ region.names⟩ :: outer

/-- The distance to the nearest region that declares the name. -/
def distance? (regions : Regions) (name : String) : Option Nat :=
  regions.findIdx? fun region => region.names.contains name

/-- What opened the regions. -/
def origins (regions : Regions) : List Origin :=
  regions.map Region.origin

@[simp] theorem origins_declare (names : List String) (regions : Regions) :
    (regions.declare names).origins = regions.origins := by
  cases regions <;> rfl

@[simp] theorem declare_nil (regions : Regions) : regions.declare [] = regions := by
  cases regions <;> rfl

/-- A name that is not among those declared is where it was. -/
theorem distance?_declare_of_not_mem {names : List String} {name : String}
    (h : name ∉ names) (regions : Regions) :
    (regions.declare names).distance? name = regions.distance? name := by
  cases regions with
  | nil => rfl
  | cons region outer =>
    have hhead : (names ++ region.names).contains name =
        region.names.contains name := by
      simp [h]
    simp only [declare, distance?, List.findIdx?_cons, hhead]

end Regions

/-! ## Sites -/

/-- What declares a name. -/
inductive Binder where
  | var | function | cls | param
deriving DecidableEq

/-- What a place does. -/
inductive Mention where
  | read (id : NodeId) (name : String)
  | write (id : NodeId) (name : String)
  | call (id : NodeId) (args : List Expr)
  | declare (binder : Binder) (name : String)

/-- The place reads or assigns the name at the node of this number. -/
def Mention.Refers (mention : Mention) (id : NodeId) (name : String) : Prop :=
  mention = .read id name ∨ mention = .write id name

/-- A place with the regions around it. -/
structure Site where
  mention : Mention
  regions : Regions
  /-- Whether it stands in the arguments of a call. -/
  inArguments : Bool

namespace Site

/-- The number of the node. -/
def id? (site : Site) : Option NodeId :=
  match site.mention with
  | .read id _ => some id
  | .write id _ => some id
  | .call id _ => some id
  | .declare _ _ => none

/-- The distance that the regions give a reference. -/
def finding? (site : Site) : Option Note :=
  match site.mention with
  | .read id name => (site.regions.distance? name).map (Note.distance id)
  | .write id name => (site.regions.distance? name).map (Note.distance id)
  | _ => none

end Site

mutual

/-- The sites in an expression. -/
def Expr.sites (regions : Regions) (inArguments : Bool) : Expr → List Site
  | .assign _ id name value =>
    value.sites regions inArguments ++ [⟨.write id name, regions, inArguments⟩]
  | .binary _ left _ right =>
    left.sites regions inArguments ++ right.sites regions inArguments
  | .call _ id callee args =>
    callee.sites regions inArguments ++
      (Expr.argumentSites regions args ++ [⟨.call id args, regions, inArguments⟩])
  | .get _ object _ => object.sites regions inArguments
  | .grouping _ inner => inner.sites regions inArguments
  | .literal .. => []
  | .logical _ left _ right =>
    left.sites regions inArguments ++ right.sites regions inArguments
  | .set _ object _ value =>
    object.sites regions inArguments ++ value.sites regions inArguments
  | .super .. => []
  | .this _ => []
  | .unary _ _ operand => operand.sites regions inArguments
  | .var _ id name => [⟨.read id name, regions, inArguments⟩]

/-- The sites in the arguments of a call. -/
def Expr.argumentSites (regions : Regions) : List Expr → List Site
  | [] => []
  | arg :: rest => arg.sites regions true ++ Expr.argumentSites regions rest

end

/-- The sites in an expression that may be absent. -/
def Expr.optionSites (regions : Regions) : Option Expr → List Site
  | none => []
  | some expr => expr.sites regions false

mutual

/-- The sites in a statement. -/
def Stmt.sites (regions : Regions) : Stmt → List Site
  | .block span body => Stmt.listSites (⟨.block span body, []⟩ :: regions) body
  | .funcDecl _ decl =>
    ⟨.declare .function decl.name.node, regions, false⟩ ::
      decl.sites (regions.declare [decl.name.node])
  | .classDecl _ decl => decl.sites regions
  | .branch _ cond onTrue none => cond.sites regions false ++ onTrue.sites regions
  | .branch _ cond onTrue (some onFalse) =>
    cond.sites regions false ++ (onTrue.sites regions ++ onFalse.sites regions)
  | .print _ _ operand => Expr.optionSites regions operand
  | .ret _ operand => Expr.optionSites regions operand
  | .brk _ => []
  | .var _ name init =>
    Expr.optionSites regions init ++ [⟨.declare .var name.node, regions, false⟩]
  | .loop _ cond body => cond.sites regions false ++ body.sites regions
  | .expression _ expr => expr.sites regions false

/-- The sites in statements, each in sight of what those before it declare. -/
def Stmt.listSites (regions : Regions) : List Stmt → List Site
  | [] => []
  | stmt :: rest =>
    stmt.sites regions ++ Stmt.listSites (regions.declare stmt.declared) rest

/-- The sites in a function, whose parameters and body share a region. -/
def FunctionDecl.sites (regions : Regions) : FunctionDecl → List Site
  | .mk name params body span =>
    params.map (fun param => ⟨.declare .param param.node,
      ⟨.call (.mk name params body span), params.map (·.node)⟩ :: regions, false⟩) ++
    Stmt.listSites (⟨.call (.mk name params body span), params.map (·.node)⟩ :: regions)
      body

/-- The sites in a class. The superclass is looked up before the class is there. -/
def ClassDecl.sites (regions : Regions) : ClassDecl → List Site
  | .mk name none methods _ =>
    ⟨.declare .cls name.node, regions, false⟩ ::
      FunctionDecl.methodSites (regions.declare [name.node]) methods
  | .mk name (some superclass) methods span =>
    superclass.sites regions false ++
      ⟨.declare .cls name.node, regions, false⟩ ::
        FunctionDecl.methodSites
          (⟨.superclass (.mk name (some superclass) methods span), ["super"]⟩ ::
            regions.declare [name.node]) methods

/-- The sites in the methods of a class, each of which has a region for its receiver. -/
def FunctionDecl.methodSites (regions : Regions) : List FunctionDecl → List Site
  | [] => []
  | decl :: rest =>
    decl.sites (⟨.receiver decl, ["this"]⟩ :: regions) ++ FunctionDecl.methodSites
      regions rest

end

/-- The sites of a program. -/
def Program.sites (program : Program) : List Site :=
  Stmt.listSites [] program.stmts

/-! ## The shape of parsed trees -/

namespace Stmt

/-- Whether the statement is a block. -/
def isBlock : Stmt → Bool
  | block .. => true
  | _ => false

/-- Whether the statement may follow `else`: a block or an `if`. -/
def isAlternative : Stmt → Bool
  | block .. => true
  | branch .. => true
  | _ => false

end Stmt

/-- Whether the expression is a plain variable. -/
def Expr.isVar : Expr → Bool
  | .var .. => true
  | _ => false

mutual

/-- Whether the bodies of `if` and `while` are blocks and superclasses are plain
variables. -/
def Stmt.formed : Stmt → Bool
  | .block _ body => Stmt.listFormed body
  | .funcDecl _ decl => decl.formed
  | .classDecl _ decl => decl.formed
  | .branch _ _ onTrue none => onTrue.isBlock && onTrue.formed
  | .branch _ _ onTrue (some onFalse) =>
    onTrue.isBlock && onTrue.formed && (onFalse.isAlternative && onFalse.formed)
  | .loop _ _ body => body.isBlock && body.formed
  | .print .. => true
  | .ret .. => true
  | .brk _ => true
  | .var .. => true
  | .expression .. => true

/-- Whether statements have that shape. -/
def Stmt.listFormed : List Stmt → Bool
  | [] => true
  | stmt :: rest => stmt.formed && Stmt.listFormed rest

/-- Whether a function has that shape. -/
def FunctionDecl.formed : FunctionDecl → Bool
  | .mk _ _ body _ => Stmt.listFormed body

/-- Whether a class has that shape. -/
def ClassDecl.formed : ClassDecl → Bool
  | .mk _ none methods _ => FunctionDecl.listFormed methods
  | .mk _ (some superclass) methods _ =>
    superclass.isVar && FunctionDecl.listFormed methods

/-- Whether methods have that shape. -/
def FunctionDecl.listFormed : List FunctionDecl → Bool
  | [] => true
  | decl :: rest => decl.formed && FunctionDecl.listFormed rest

end

theorem Stmt.declared_of_isBlock {stmt : Stmt} (h : stmt.isBlock = true) :
    stmt.declared = [] := by
  cases stmt with
  | block span body => rfl
  | _ => cases h

/-- What may follow `else` declares nothing around itself. -/
theorem Stmt.declared_of_isAlternative :
    ∀ {stmt : Stmt}, stmt.isAlternative = true → stmt.formed = true → stmt.declared = []
  | .block .., _, _ => rfl
  | .branch _ _ onTrue none, _, hformed => by
    simp only [Stmt.formed, Bool.and_eq_true] at hformed
    simp only [declared, declared_of_isBlock hformed.1]
  | .branch _ _ onTrue (some onFalse), _, hformed => by
    simp only [Stmt.formed, Bool.and_eq_true] at hformed
    obtain ⟨⟨htrue, -⟩, hfalse, hfalse'⟩ := hformed
    simp only [declared, declared_of_isBlock htrue,
      declared_of_isAlternative hfalse hfalse', append_nil]

theorem Stmt.listFormed_append (body body' : List Stmt) :
    listFormed (body ++ body') = (listFormed body && listFormed body') := by
  induction body with
  | nil => rfl
  | cons stmt body ih => simp [listFormed, ih, Bool.and_assoc]

private theorem FunctionDecl.listFormed_append (decls decls' : List FunctionDecl) :
    listFormed (decls ++ decls') = (listFormed decls && listFormed decls') := by
  induction decls with
  | nil => rfl
  | cons decl decls ih => simp [listFormed, ih, Bool.and_assoc]

namespace Grammar

mutual

private theorem Declarations.formed {ts : Tokens} {n m : NodeId} {body : List Stmt} :
    Declarations ts n body m → Stmt.listFormed body = true
  | .nil => rfl
  | .more hbody hs => by
    rw [Stmt.listFormed_append]
    simp [Stmt.listFormed, hbody.formed, hs.formed]

private theorem Declaration.formed {ts : Tokens} {n m : NodeId} {s : Stmt} :
    Declaration ts n s m → s.formed = true
  | .function h => by
    simp only [Stmt.formed]
    exact h.formed
  | .cls .none hms => by
    simp only [Stmt.formed, ClassDecl.formed]
    exact hms.formed
  | .cls .some hms => by
    simp only [Stmt.formed, ClassDecl.formed, Expr.isVar, Bool.true_and]
    exact hms.formed
  | .statement h => h.formed

private theorem FunctionDeclaration.formed {ts : Tokens} {n m : NodeId}
    {decl : FunctionDecl} :
    FunctionDeclaration ts n decl m → decl.formed = true
  | .mk _ hbody => by
    simp only [FunctionDecl.formed]
    exact hbody.formed

private theorem Methods.formed {ts : Tokens} {n m : NodeId}
    {methods : List FunctionDecl} :
    Methods ts n methods m → FunctionDecl.listFormed methods = true
  | .nil => rfl
  | .more hms hdecl => by
    rw [FunctionDecl.listFormed_append]
    simp [FunctionDecl.listFormed, hms.formed, hdecl.formed]

private theorem Statement.formed {ts : Tokens} {n m : NodeId} {s : Stmt} :
    Statement ts n s m → s.formed = true
  | .var => rfl
  | .varInit _ => rfl
  | .print _ => rfl
  | .ret _ => rfl
  | .brk => rfl
  | .conditional h => h.formed.1
  | .loop _ hbody => by simp [Stmt.formed, Stmt.isBlock, hbody.formed]
  | .block hbody => by simp [Stmt.formed, hbody.formed]
  | .expression _ => rfl

private theorem Conditional.formed {ts : Tokens} {n m : NodeId} {s : Stmt} :
    Conditional ts n s m → s.formed = true ∧ s.isAlternative = true
  | .plain _ hbody =>
    by simp [Stmt.formed, Stmt.isBlock, Stmt.isAlternative, hbody.formed]
  | .otherwise _ hbody hother => by
    simp [Stmt.formed, Stmt.isBlock, Stmt.isAlternative, hbody.formed, hother.formed]
  | .chained _ hbody h => by
    have hs := h.formed
    refine ⟨?_, rfl⟩
    simp only [Stmt.formed, hs.1, hs.2, hbody.formed]
    rfl

end

theorem Derives.formed {firstId next : NodeId} {ts : Tokens} {program : Program}
    (h : Derives firstId ts program next) : Stmt.listFormed program.stmts = true :=
  Declarations.formed h

end Grammar

/-! ## Sites and node numbers -/

mutual

private theorem Expr.ids_sites (regions : Regions) (inArguments : Bool) :
    ∀ expr : Expr, (expr.sites regions inArguments).filterMap Site.id? = expr.ids
  | .assign _ id name value => by
    simp [sites, ids, filterMap_append, ids_sites regions inArguments value, Site.id?]
  | .binary _ left _ right => by
    simp [sites, ids, filterMap_append, ids_sites regions inArguments left,
      ids_sites regions inArguments right]
  | .call _ id callee args => by
    simp [sites, ids, filterMap_append, ids_sites regions inArguments callee,
      ids_argumentSites regions args, Site.id?]
  | .get _ object _ => by simp [sites, ids, ids_sites regions inArguments object]
  | .grouping _ inner => by simp [sites, ids, ids_sites regions inArguments inner]
  | .literal .. => by simp [sites, ids]
  | .logical _ left _ right => by
    simp [sites, ids, filterMap_append, ids_sites regions inArguments left,
      ids_sites regions inArguments right]
  | .set _ object _ value => by
    simp [sites, ids, filterMap_append, ids_sites regions inArguments object,
      ids_sites regions inArguments value]
  | .super .. => by simp [sites, ids]
  | .this _ => by simp [sites, ids]
  | .unary _ _ operand => by simp [sites, ids, ids_sites regions inArguments operand]
  | .var _ id name => by simp [sites, ids, Site.id?]

private theorem Expr.ids_argumentSites (regions : Regions) :
    ∀ args : List Expr, (argumentSites regions args).filterMap Site.id? = listIds args
  | [] => rfl
  | arg :: rest => by
    simp [argumentSites, listIds, filterMap_append, ids_sites regions true arg,
      ids_argumentSites regions rest]

end

private theorem Expr.ids_optionSites (regions : Regions) (expr : Option Expr) :
    (optionSites regions expr).filterMap Site.id? = optionIds expr := by
  cases expr with
  | none => rfl
  | some expr => exact expr.ids_sites regions false

private theorem FunctionDecl.ids_params (regions : Regions) (params : List Name) :
    (params.map fun param =>
      (⟨.declare .param param.node, regions, false⟩ : Site)).filterMap Site.id? =
      [] := by
  induction params with
  | nil => rfl
  | cons param params ih => simp [Site.id?]

mutual

/-- The sites of a tree have the numbers of the tree, in order. -/
private theorem Stmt.ids_sites (regions : Regions) :
    ∀ stmt : Stmt, (stmt.sites regions).filterMap Site.id? = stmt.ids
  | .block span body => by simp [Stmt.sites, Stmt.ids, Stmt.ids_listSites _ body]
  | .funcDecl _ decl => by
    simp [Stmt.sites, Stmt.ids, Site.id?, filterMap_cons, FunctionDecl.ids_sites _ decl]
  | .classDecl _ decl =>
    by simp [Stmt.sites, Stmt.ids, ClassDecl.ids_sites regions decl]
  | .branch _ cond onTrue none => by
    simp [Stmt.sites, Stmt.ids, filterMap_append, cond.ids_sites,
      Stmt.ids_sites regions onTrue]
  | .branch _ cond onTrue (some onFalse) => by
    simp [Stmt.sites, Stmt.ids, filterMap_append, cond.ids_sites,
      Stmt.ids_sites regions onTrue, Stmt.ids_sites regions onFalse]
  | .print _ _ operand => by simp [Stmt.sites, Stmt.ids, Expr.ids_optionSites]
  | .ret _ operand => by simp [Stmt.sites, Stmt.ids, Expr.ids_optionSites]
  | .brk _ => by simp [Stmt.sites, Stmt.ids]
  | .var _ name init => by
    simp [Stmt.sites, Stmt.ids, filterMap_append, Expr.ids_optionSites, Site.id?]
  | .loop _ cond body => by
    simp [Stmt.sites, Stmt.ids, filterMap_append, cond.ids_sites,
      Stmt.ids_sites regions body]
  | .expression _ expr => by simp [Stmt.sites, Stmt.ids, expr.ids_sites]

theorem Stmt.ids_listSites (regions : Regions) :
    ∀ body : List Stmt, (Stmt.listSites regions body).filterMap Site.id? =
      Stmt.listIds body
  | [] => rfl
  | stmt :: rest => by
    simp [Stmt.listSites, Stmt.listIds, filterMap_append, Stmt.ids_sites regions stmt,
      Stmt.ids_listSites _ rest]

private theorem FunctionDecl.ids_sites (regions : Regions) :
    ∀ decl : FunctionDecl, (decl.sites regions).filterMap Site.id? = decl.ids
  | .mk name params body span => by
    rw [FunctionDecl.sites, filterMap_append, FunctionDecl.ids_params,
      Stmt.ids_listSites _ body]
    rfl

private theorem ClassDecl.ids_sites (regions : Regions) :
    ∀ decl : ClassDecl, (decl.sites regions).filterMap Site.id? = decl.ids
  | .mk name none methods span => by
    simp [ClassDecl.sites, ClassDecl.ids, Site.id?, Expr.optionIds, filterMap_cons,
      FunctionDecl.ids_methodSites _ methods]
  | .mk name (some superclass) methods span => by
    simp [ClassDecl.sites, ClassDecl.ids, Site.id?, Expr.optionIds, filterMap_append,
      filterMap_cons, superclass.ids_sites, FunctionDecl.ids_methodSites _ methods]

private theorem FunctionDecl.ids_methodSites (regions : Regions) :
    ∀ methods : List FunctionDecl,
      (FunctionDecl.methodSites regions methods).filterMap Site.id? =
        FunctionDecl.listIds methods
  | [] => rfl
  | decl :: rest => by
    simp [FunctionDecl.methodSites, FunctionDecl.listIds, filterMap_append,
      FunctionDecl.ids_sites _ decl, FunctionDecl.ids_methodSites regions rest]

end

end Treewalk
