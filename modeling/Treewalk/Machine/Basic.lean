import Treewalk.Frame
import Treewalk.Heap.Basic
import Treewalk.Native.Host
import Treewalk.Scope.Resolution
import Treewalk.Settings.Basic

/-!
# The state of a run

A run is a sequence of states of a machine. The machine has a `World` (the heap, the
call frames and what was printed), a `Control` that says what it is about to do, and a
list of `Pending` things that wait for the outcome. What stays the same over the run is
a `Context`. No transition calls the machine again, so scripts may nest calls as deep as
their own limit allows.
-/

namespace Treewalk

/-- Where a name is looked for. -/
inductive Discipline where
  /-- In the frame of the call first, then in the scopes. -/
  | frames
  /-- In the scopes alone. -/
  | scopes
deriving DecidableEq

/-- What a run does not change. -/
structure Context where
  discipline : Discipline
  settings : RunSettings
  natives : List Native
  resolution : Resolution
  host : Host

/-- What a run changes. -/
structure World where
  heap : Heap
  frames : Frames
  /-- What was printed. -/
  output : String

/-- How a statement ended. -/
inductive Flow where
  /-- The next statement follows. -/
  | normal
  /-- The call around it ends with a value. -/
  | ret (value : Value)
  /-- The loop around it ends. -/
  | brk

/-- How a call finds what it calls. -/
inductive Callee where
  /-- A method that was looked up before the arguments. -/
  | found (value : Value)
  /-- The capability of the name called. -/
  | native
  /-- The variable at this place, looked up after the arguments. -/
  | named (span : Span) (id : NodeId)

/-- A call whose arguments are being evaluated. -/
structure Call where
  span : Span
  name : String
  callee : Callee
  env : ScopeId

/-- What waits for the outcome of an evaluation. -/
inductive Pending where
  /-- `name = □` -/
  | assign (span : Span) (id : NodeId) (name : String) (env : ScopeId)
  /-- `□ op right` -/
  | binaryLeft (span : Span) (op : BinaryOp) (right : Expr) (env : ScopeId)
  /-- `left op □` -/
  | binaryRight (span : Span) (left : Value) (op : BinaryOp)
  /-- `□ op right`, where the right side may be skipped. -/
  | logical (op : LogicalOp) (right : Expr) (env : ScopeId)
  /-- `op □` -/
  | unary (span : Span) (op : UnaryOp)
  /-- `□.name` -/
  | get (span : Span) (name : String)
  /-- `□.name = value` -/
  | setObject (span : Span) (name : String) (value : Expr) (env : ScopeId)
  /-- `inst.name = □` -/
  | setField (inst : Instance) (name : String)
  /-- `□.name(args)`, where `access` is the place of `□.name`. -/
  | receiver (span access : Span) (name : String) (args : List Expr) (env : ScopeId)
  /-- An argument of a call, between those done, the last one first, and those to
  come. -/
  | argument (call : Call) (done : List (Expr × Value)) (current : Expr)
      (rest : List Expr)
  /-- The end of a call, whose frame goes. An error without a place gets that of the
  call. -/
  | leave (span : Option Span)
  /-- The end of the body of a function. -/
  | result (function : Function)
  /-- The end of the initializer of an instance. -/
  | construct (inst : Instance)
  /-- `□; rest` -/
  | seq (rest : List Stmt) (env : ScopeId)
  /-- `var name = □;` -/
  | declare (name : String) (env : ScopeId)
  /-- `if □ onTrue else onFalse` -/
  | branch (onTrue : Stmt) (onFalse : Option Stmt) (env : ScopeId)
  /-- `while □ body` -/
  | loopTest (cond : Expr) (body : Stmt) (env : ScopeId)
  /-- `while cond □` -/
  | loopBody (cond : Expr) (body : Stmt) (env : ScopeId)
  /-- `print(□);` -/
  | print (newline : Bool)
  /-- `return □;` -/
  | ret
  /-- `□;` -/
  | discard
  /-- The superclass of a class, at its place. -/
  | superclass (span : Span) (decl : ClassDecl) (env : ScopeId)
  /-- The declarations before the entry point is called. -/
  | enterMain

/-- What the machine is about to do. -/
inductive Control where
  | eval (expr : Expr) (env : ScopeId)
  | exec (stmt : Stmt) (env : ScopeId)
  /-- Ask the host. -/
  | native (name : String) (args : List Value)
  /-- Hand on a value. -/
  | value (value : Value)
  /-- Hand on the end of a statement. -/
  | flow (flow : Flow)
  /-- Hand on an error. -/
  | fail (error : RuntimeError)

/-- The machine. -/
structure Machine where
  world : World
  control : Control
  pending : List Pending

/-- The outermost scope. -/
def globalScope : ScopeId :=
  0

/-- The name of the frame under which top-level code runs. -/
def globalFrame : String :=
  "__global__"

/-- The name of the function or class that a program starts from. -/
def entryPoint : String :=
  "main"

namespace Machine

/-- Fails with a cause at a place. -/
def failAt (world : World) (pending : List Pending) (cause : Cause)
    (span : Option Span) :
    Machine :=
  ⟨world, .fail ⟨cause, span⟩, pending⟩

/-- Hands on a value, or fails at a place. -/
def answer (world : World) (pending : List Pending) (span : Option Span) :
    Except Cause Value → Machine
  | .ok value => ⟨world, .value value, pending⟩
  | .error cause => failAt world pending cause span

/-- How the run ended: with an error, or with the value where there is one. -/
def outcome? : Machine → Option (Except RuntimeError (Option Value))
  | ⟨_, .value value, []⟩ => some (.ok (some value))
  | ⟨_, .flow _, []⟩ => some (.ok none)
  | ⟨_, .fail error, []⟩ => some (.error error)
  | _ => none

end Machine

end Treewalk
