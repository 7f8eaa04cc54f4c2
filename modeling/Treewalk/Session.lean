import Treewalk.Machine.Run
import Treewalk.Source

/-!
# Sessions

A session takes texts one after another. What earlier texts defined globally is there
for later ones, and so is what was resolved about the nodes of their functions; node
numbers go on over all texts, so that findings about different texts never meet. A text
that cannot be read or resolved runs nothing.

Runs are bounded by a number of transitions that the caller chooses; `none` stands for a
run that does not end within it.
-/

namespace Treewalk

/-- What a session keeps between texts. -/
structure Session where
  settings : RunSettings
  natives : List Native
  resolution : Resolution
  nextId : NodeId
  heap : Heap

/-- The outcome of a run, and what it printed. -/
structure Report where
  result : Except RuntimeError (Option Value)
  output : String

/-- What a session is asked to run. -/
inductive Task where
  /-- Give the value of an expression. -/
  | evaluate (expr : Expr)
  /-- Run all top-level statements. -/
  | script (program : Program)
  /-- Run from the entry point if there is one. -/
  | run (program : Program)

namespace Task

/-- What a line asks for: a lone expression is evaluated, anything else is run. -/
def ofLine (program : Program) : Task :=
  match program.stmts with
  | [.expression _ expr] => .evaluate expr
  | _ => .script program

/-- The start of its run. -/
def machine (heap : Heap) : Task → Machine
  | evaluate expr => .ofExpr heap expr
  | script program => .ofScript heap program
  | run program => .ofProgram heap program

end Task

namespace Session

/-- A session before its first text. -/
def start (settings : RunSettings) (natives : List Native) : Session where
  settings := settings
  natives := natives
  resolution := .empty
  nextId := 0
  heap := .start natives

/-- A session with given settings, or the name of a capability that there is not. -/
def ofSettings (settings : Settings) : Except Error Session :=
  match Native.enable settings.natives with
  | .error name => .error (.config (Native.unknownMessage name))
  | .ok natives => .ok (start settings.run natives)

/-- The global names that scripts have declared. -/
def globalNames (session : Session) : List String :=
  session.heap.globalNames

/-- The context of the next run. -/
def context (session : Session) (host : Host) : Context :=
  ⟨.frames, session.settings, session.natives, session.resolution, host⟩

/-- Reads a text and takes in what is resolved about it, without running anything. -/
def prepare (session : Session) (source : String) : Session × Except Error Program :=
  let (result, nextId) := Source.read session.nextId source
  let session := { session with nextId := nextId }
  match result with
  | .error e => (session, .error e)
  | .ok program =>
    match program.resolve (Native.enabled session.natives) session.globalNames with
    | .error e => (session, .error e.toError)
    | .ok resolution =>
      ({ session with resolution := session.resolution.merge resolution }, .ok program)

/-- Runs a task to its end. -/
def perform (limit : Nat) (host : Host) (session : Session) (task : Task) :
    Option (Session × Report) :=
  let machine := (task.machine session.heap).run (session.context host) limit
  machine.outcome?.map fun result =>
    ({ session with heap := machine.world.heap }, ⟨result, machine.world.output⟩)

/-- Reads a text and runs what it asks for. -/
def submit (limit : Nat) (host : Host) (task : Program → Task) (session : Session)
    (source : String) : Option (Session × Except Error (Option Value) × String) :=
  match session.prepare source with
  | (session, .error e) => some (session, .error e, "")
  | (session, .ok program) =>
    (session.perform limit host (task program)).map fun (session, report) =>
      (session, report.result.mapError .runtime, report.output)

end Session

end Treewalk
