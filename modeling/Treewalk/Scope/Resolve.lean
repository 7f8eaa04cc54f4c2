import Treewalk.Scope.Notes

/-!
# Resolution of programs

Resolution fails only for a class that names itself as its superclass, and then the
first such class in the order of the text is the one reported. Otherwise it gives the
findings of the whole program, in whose sight are from the start the globals that are
there already and all names that it declares at its top level.
-/

namespace Treewalk

/-! ## Classes that inherit from themselves -/

/-- A class names itself as its superclass. -/
structure ResolveError where
  name : String
  span : Span
deriving DecidableEq

/-- The wording of the error. -/
def ResolveError.message (e : ResolveError) : String :=
  "class " ++ e.name ++ " can't inherit from itself"

/-- The fault of a superclass clause. -/
def ClassDecl.ownFault? (name : Name) (superclass : Expr) : Option ResolveError :=
  if superclass.name? = some name.node then some ⟨name.node, superclass.span⟩ else none

mutual

/-- The first class in a statement that names itself as its superclass. -/
def Stmt.fault? : Stmt → Option ResolveError
  | .block _ body => Stmt.listFault? body
  | .funcDecl _ decl => decl.fault?
  | .classDecl _ decl => decl.fault?
  | .branch _ _ onTrue none => onTrue.fault?
  | .branch _ _ onTrue (some onFalse) => onTrue.fault?.or onFalse.fault?
  | .loop _ _ body => body.fault?
  | .print .. => none
  | .ret .. => none
  | .brk _ => none
  | .var .. => none
  | .expression .. => none

/-- The first such class in statements. -/
def Stmt.listFault? : List Stmt → Option ResolveError
  | [] => none
  | stmt :: rest => stmt.fault?.or (Stmt.listFault? rest)

/-- The first such class in a function. -/
def FunctionDecl.fault? : FunctionDecl → Option ResolveError
  | .mk _ _ body _ => Stmt.listFault? body

/-- The first such class in a class, itself first. -/
def ClassDecl.fault? : ClassDecl → Option ResolveError
  | .mk _ none methods _ => FunctionDecl.listFault? methods
  | .mk name (some superclass) methods _ =>
    (ClassDecl.ownFault? name superclass).or (FunctionDecl.listFault? methods)

/-- The first such class in methods. -/
def FunctionDecl.listFault? : List FunctionDecl → Option ResolveError
  | [] => none
  | decl :: rest => decl.fault?.or (FunctionDecl.listFault? rest)

end

/-! ## Programs -/

/-- The name that a top-level statement makes global for the whole program. -/
def Stmt.globalName? : Stmt → Option String
  | .var _ name _ => some name.node
  | stmt => stmt.declaredName?

namespace Program

/-- What is in sight at the start of a program: the known globals and all names that it
declares at its top level. -/
def sight (program : Program) (natives : String → Bool) (globals : List String) :
    Sight :=
  ⟨[], program.stmts.filterMap Stmt.globalName? ++ globals, natives⟩

/-- Resolves a program against the names of capabilities and the globals that are there
already. -/
def resolve (program : Program) (natives : String → Bool) (globals : List String) :
    Except ResolveError Resolution :=
  match Stmt.listFault? program.stmts with
  | some fault => .error fault
  | none =>
    .ok (.ofNotes (Stmt.listNotes (program.sight natives globals) program.stmts))

end Program

end Treewalk
