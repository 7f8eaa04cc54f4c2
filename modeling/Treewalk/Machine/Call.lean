import Treewalk.Machine.Variable

/-!
# Calls

A call enters a frame, evaluates its arguments under that frame from left to right, puts
those that are plain variables into the frame under their own names, and then invokes
what it calls. A call by a plain name looks the name up after its arguments. The frame
goes when the call ends (`Pending.leave`).
-/

namespace Treewalk.Machine

/-- Runs the body of a function in a new scope inside its closure. -/
def callFunction (world : World) (pending : List Pending) (function : Function)
    (args : List Value) : Machine :=
  let ⟨heap, frames, output⟩ := world
  let params := function.decl.params.map (·.node)
  let (env, heap) := heap.makeChild function.closure (Table.putAll [] (params.zip args))
  ⟨⟨heap, frames, output⟩, .flow .normal,
    .seq function.decl.body env :: .result function :: pending⟩

/-- Makes an instance and runs the initializer on it, where there is one. -/
def construct (world : World) (pending : List Pending) (cls : Class)
    (args : List Value) :
    Machine :=
  let ⟨heap, frames, output⟩ := world
  let (inst, heap) := heap.makeInstance cls
  match cls.findMethod? Class.initializer with
  | none => ⟨⟨heap, frames, output⟩, .value (.inst inst), pending⟩
  | some init =>
    let (bound, heap) := heap.bind init (.inst inst)
    callFunction ⟨heap, frames, output⟩ (.construct inst :: pending) bound args

/-- Calls a value under the name that the call gives it. -/
def invoke (world : World) (pending : List Pending) (name : String) (callee : Value)
    (args : List Value) : Machine :=
  match callee.callable? with
  | none => failAt world pending (.notCallable name callee.kind) none
  | some callable =>
    if args.length = callable.arity then
      match callable with
      | .function function => callFunction world pending function args
      | .cls cls => construct world pending cls args
      | .native native => ⟨world, .native native.name args, pending⟩
    else failAt world pending (.arity name callable.arity args.length) none

/-- The arguments that are variables, under their own names. -/
def namedArguments (args : List (Expr × Value)) : List (String × Value) :=
  args.filterMap fun
    | (.var _ _ name, value) => some (name, value)
    | _ => none

/-- Calls what the call is for, all arguments being known. -/
def complete (ctx : Context) (world : World) (pending : List Pending) (call : Call)
    (args : List (Expr × Value)) : Machine :=
  let ⟨heap, frames, output⟩ := world
  let world : World := ⟨heap, frames.addAll (namedArguments args), output⟩
  let values := args.map (·.2)
  match call.callee with
  | .found callee => invoke world pending call.name callee values
  | .native => ⟨world, .native call.name values, pending⟩
  | .named span id =>
    match ctx.read world call.name id call.env with
    | .ok callee => invoke world pending call.name callee values
    | .error cause => failAt world pending cause (some span)

/-- Goes on to the next argument of a call, or to the call itself. -/
def nextArgument (ctx : Context) (world : World) (pending : List Pending) (call : Call)
    (done : List (Expr × Value)) : List Expr → Machine
  | expr :: rest =>
    ⟨world, .eval expr call.env, .argument call done expr rest :: pending⟩
  | [] => complete ctx world pending call done.reverse

/-- Enters the frame of a call, unless calls are nested too deep. -/
def enter (ctx : Context) (world : World) (pending : List Pending) (name : String)
    (span : Option Span) (next : World → List Pending → Machine) : Machine :=
  if world.frames.depth > ctx.settings.maxCallDepth then
    failAt world pending (.stackOverflow ctx.settings.maxCallDepth) span
  else
    let ⟨heap, frames, output⟩ := world
    next ⟨heap, frames.push name, output⟩ (.leave span :: pending)

/-- Starts a call: its frame, then its arguments. -/
def startCall (ctx : Context) (world : World) (pending : List Pending) (call : Call)
    (args : List Expr) : Machine :=
  enter ctx world pending call.name (some call.span) fun world pending =>
    nextArgument ctx world pending call [] args

end Treewalk.Machine
