import Treewalk.Session
import Treewalk.Settings.Locate

/-!
# Runs that talk to the world

A `System` is what a command can ask of the world: files, the clock, the memory report,
lines typed in, and places for output and complaints. It is given in some monad, so that
the same commands run against the real world and against one held in memory.
`System.drive` runs a machine: between two questions to the host the run is a function,
and what it printed is passed on as it goes.
-/

namespace Treewalk

/-- What a command can ask of the world. -/
structure System (m : Type → Type) extends Files m where
  memoryReport : m (Except String String)
  clock : m Int64
  /-- The next line typed in, without its end, until there are no more. -/
  readLine : m (Option String)
  print : String → m Unit
  complain : String → m Unit
  /-- How tables are visited for a hint. -/
  visit : Visit

namespace Machine

/-- Whether the machine is about to ask the host. -/
def asksHost (machine : Machine) : Bool :=
  match machine.control with
  | .native .. => true
  | _ => false

/-- Goes on until the run ends or asks the host, for at most `limit` transitions. -/
def advance (ctx : Context) : Nat → Machine → Machine
  | 0, machine => machine
  | limit + 1, machine =>
    if machine.isFinal || machine.asksHost then machine
    else advance ctx limit (machine.step ctx)

/-- The machine with its printed text taken away. -/
def takeOutput (machine : Machine) : String × Machine :=
  let ⟨⟨heap, frames, output⟩, control, pending⟩ := machine
  (output, ⟨⟨heap, frames, ""⟩, control, pending⟩)

end Machine

namespace System

variable {m : Type → Type} [Monad m]

/-- The answer to one call. -/
def answersFor (system : System m) (native : Option Native) (args : List Value) :
    m Answers := do
  match native, args with
  | some .clock, _ => return { Answers.none with clock := ← system.clock }
  | some .fileOpen, .string path :: _ =>
    let answer ← system.text path
    return { Answers.none with fileText := fun _ => answer }
  | some .availableMemory, _ =>
    return { Answers.none with memoryReport := ← system.memoryReport }
  | _, _ => return .none

/-- The number of transitions between two looks at what was printed. -/
def stride : Nat :=
  65536

/-- Prints a text, unless there is none. -/
def say (system : System m) (text : String) : m Unit :=
  if text = "" then return () else system.print text

/-- Has the host answer a machine that asks it. -/
def reply (system : System m) (ctx : Context) (machine : Machine) : m Machine :=
  match machine.control with
  | .native name args => do
    let answers ← system.answersFor (Native.named? name ctx.natives) args
    return machine.step { ctx with host := ⟨fun _ => answers⟩ }
  | _ => return machine

/-- Runs a machine, and prints as it goes; `rounds` bounds the number of strides. -/
def drive (system : System m) (ctx : Context) : Nat → Machine → m Machine
  | 0, machine => return machine
  | rounds + 1, machine => do
    let (output, machine) := (machine.advance ctx stride).takeOutput
    system.say output
    if machine.isFinal then return machine
    drive system ctx rounds (← system.reply ctx machine)

/-- Runs a task of a session. A run that does not end within the rounds counts as
ended. -/
def perform (system : System m) (rounds : Nat) (session : Session) (task : Task) :
    m (Session × Except RuntimeError (Option Value)) := do
  let machine ← system.drive (session.context Host.silent) rounds
    (task.machine session.heap)
  return ({ session with heap := machine.world.heap }, machine.outcome?.getD (.ok none))

/-- Reads a text and runs what it asks for. -/
def submit (system : System m) (rounds : Nat) (session : Session)
    (task : Program → Task) (source : String) :
    m (Session × Except Error (Option Value)) := do
  match session.prepare source with
  | (session, .error e) => return (session, .error e)
  | (session, .ok program) =>
    let (session, result) ← system.perform rounds session (task program)
    return (session, result.mapError .runtime)

end System

end Treewalk
