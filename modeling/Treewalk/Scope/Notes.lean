import Treewalk.Scope.Resolution

/-!
# Findings about scopes

Every variable and assignment that refers to a local name has a distance: the number of
scopes between the use and the scope that declares the name. Blocks, calls, the receiver
of a method and the superclass of a class each open a scope, and the walk below opens
the same scopes in the same order. Names that no open scope declares are global and get
no distance. A call of a capability by its name is noted too, unless the script declares
that name.

The walk keeps a `Sight`, the names in sight at a place. What a statement declares in
the scope that it stands in is `Stmt.declared`; it is in sight for the statements after
it, and a function or class is in sight of its own body.
-/

namespace Treewalk

/-! ## Names in sight -/

/-- The names in sight: those of the open scopes, the innermost first, the global ones,
and which names capabilities have. -/
structure Sight where
  scopes : List (List String)
  globals : List String
  natives : String → Bool

namespace Sight

/-- Adds names to the innermost scope, or to the global ones where no scope is open. -/
def declare (sight : Sight) (names : List String) : Sight :=
  match sight.scopes with
  | [] => { sight with globals := names ++ sight.globals }
  | scope :: outer => { sight with scopes := (names ++ scope) :: outer }

/-- Opens a scope with these names. -/
def enter (sight : Sight) (names : List String) : Sight :=
  { sight with scopes := names :: sight.scopes }

/-- The distance to the nearest scope that declares the name. -/
def distance? (sight : Sight) (name : String) : Option Nat :=
  sight.scopes.findIdx? fun scope => scope.contains name

/-- Whether the name means a capability: no scope and no global declares it. -/
def isNative (sight : Sight) (name : String) : Bool :=
  sight.natives name && !sight.globals.contains name &&
    (sight.distance? name).isNone

/-- The finding about a reference to a name. -/
def reference (sight : Sight) (id : NodeId) (name : String) : List Note :=
  match sight.distance? name with
  | some distance => [.distance id distance]
  | none => []

/-- The finding about a call. -/
def call (sight : Sight) (id : NodeId) (callee : Expr) : List Note :=
  match callee with
  | .var _ _ name => if sight.isNative name then [.nativeCall id] else []
  | _ => []

end Sight

/-! ## Expressions -/

namespace Expr

mutual

/-- The findings in an expression. -/
def notes (sight : Sight) : Expr → List Note
  | assign _ id name value => value.notes sight ++ sight.reference id name
  | binary _ left _ right => left.notes sight ++ right.notes sight
  | call _ id callee args =>
    sight.call id callee ++ callee.notes sight ++ listNotes sight args
  | get _ object _ => object.notes sight
  | grouping _ inner => inner.notes sight
  | literal .. => []
  | logical _ left _ right => left.notes sight ++ right.notes sight
  | set _ object _ value => value.notes sight ++ object.notes sight
  | super .. => []
  | this _ => []
  | unary _ _ operand => operand.notes sight
  | var _ id name => sight.reference id name

/-- The findings in expressions, from first to last. -/
def listNotes (sight : Sight) : List Expr → List Note
  | [] => []
  | expr :: rest => expr.notes sight ++ listNotes sight rest

end

/-- The findings in an expression that may be absent. -/
def optionNotes (sight : Sight) : Option Expr → List Note
  | none => []
  | some expr => expr.notes sight

end Expr

/-! ## Statements -/

/-- The names that a statement declares in the scope that it stands in. -/
def Stmt.declared : Stmt → List String
  | funcDecl _ decl => [decl.name.node]
  | classDecl _ decl => [decl.name.node]
  | var _ name _ => [name.node]
  | branch _ _ onTrue none => onTrue.declared
  | branch _ _ onTrue (some onFalse) => onFalse.declared ++ onTrue.declared
  | loop _ _ body => body.declared
  | _ => []

mutual

/-- The findings in a statement. -/
def Stmt.notes (sight : Sight) : Stmt → List Note
  | .block _ body => Stmt.listNotes (sight.enter []) body
  | .funcDecl _ decl => decl.notes (sight.declare [decl.name.node])
  | .classDecl _ decl => decl.notes (sight.declare [decl.name.node])
  | .branch _ cond onTrue none => cond.notes sight ++ onTrue.notes sight
  | .branch _ cond onTrue (some onFalse) =>
    cond.notes sight ++ onTrue.notes sight ++
      onFalse.notes (sight.declare onTrue.declared)
  | .print _ _ operand => Expr.optionNotes sight operand
  | .ret _ operand => Expr.optionNotes sight operand
  | .brk _ => []
  | .var _ _ init => Expr.optionNotes sight init
  | .loop _ cond body => cond.notes sight ++ body.notes sight
  | .expression _ expr => expr.notes sight

/-- The findings in statements, each in sight of what those before it declare. -/
def Stmt.listNotes (sight : Sight) : List Stmt → List Note
  | [] => []
  | stmt :: rest =>
    stmt.notes sight ++ Stmt.listNotes (sight.declare stmt.declared) rest

/-- The findings in a function, whose parameters and body share a scope. -/
def FunctionDecl.notes (sight : Sight) : FunctionDecl → List Note
  | .mk _ params body _ => Stmt.listNotes (sight.enter (params.map (·.node))) body

/-- The findings in a class: the superclass has a scope around the scope of the
receiver. -/
def ClassDecl.notes (sight : Sight) : ClassDecl → List Note
  | .mk _ none methods _ => FunctionDecl.listNotes (sight.enter ["this"]) methods
  | .mk _ (some superclass) methods _ =>
    superclass.notes sight ++
      FunctionDecl.listNotes ((sight.enter ["super"]).enter ["this"]) methods

/-- The findings in the methods of a class. -/
def FunctionDecl.listNotes (sight : Sight) : List FunctionDecl → List Note
  | [] => []
  | decl :: rest => decl.notes sight ++ FunctionDecl.listNotes sight rest

end

end Treewalk
