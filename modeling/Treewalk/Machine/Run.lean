import Treewalk.Machine.Step

/-!
# Runs

A run starts with the global frame alone. A program with an entry point executes its
declarations and then calls `main`; any other program executes its statements in order
until one of them does not end normally.
-/

namespace Treewalk

/-- Whether a statement declares the entry point: a function `main` without parameters,
or a class of that name. -/
def Stmt.isEntryPoint : Stmt → Bool
  | .funcDecl _ decl => decl.name.node == entryPoint && decl.params.isEmpty
  | .classDecl _ decl => decl.name.node == entryPoint
  | _ => false

/-- Whether a program has an entry point. -/
def Program.hasEntryPoint (program : Program) : Bool :=
  program.stmts.any Stmt.isEntryPoint

/-- The world at the start of a run. -/
def World.start (heap : Heap) : World :=
  ⟨heap, Frames.empty.push globalFrame, ""⟩

namespace Machine

/-- The start of an evaluation in the global scope. -/
def ofExpr (heap : Heap) (expr : Expr) : Machine :=
  ⟨.start heap, .eval expr globalScope, []⟩

/-- The start of a run of all top-level statements. -/
def ofScript (heap : Heap) (program : Program) : Machine :=
  ⟨.start heap, .flow .normal, [.seq program.stmts globalScope]⟩

/-- The start of a run from the entry point. -/
def ofEntryPoint (heap : Heap) (program : Program) : Machine :=
  ⟨.start heap, .flow .normal,
    [.seq (program.stmts.filter Stmt.isDeclaration) globalScope, .enterMain]⟩

/-- The start of a run. -/
def ofProgram (heap : Heap) (program : Program) : Machine :=
  if program.hasEntryPoint then ofEntryPoint heap program else ofScript heap program

/-- Whether the run has ended. -/
def isFinal (m : Machine) : Bool :=
  m.outcome?.isSome

/-- Goes on until the run ends, for at most `limit` transitions. -/
def run (ctx : Context) : Nat → Machine → Machine
  | 0, m => m
  | limit + 1, m => if m.isFinal then m else run ctx limit (step ctx m)

end Machine

/-- The heap before any run: the global scope holds the enabled capabilities. -/
def Heap.start (natives : List Native) : Heap :=
  (Heap.empty.makeScope []
    (natives.map fun native => (native.name, .callable (.native native)))).2

/-- The global names that scripts have declared. -/
def Heap.globalNames (heap : Heap) : List String :=
  (heap.bindings globalScope).filterMap fun
    | (_, .callable (.native _)) => none
    | (name, _) => some name

end Treewalk
