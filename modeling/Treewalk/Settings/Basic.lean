import Treewalk.Native.Basic

/-!
# Settings

What can be configured about a run: how far `break` reaches, what the fault of a host
capability becomes, how deep calls may nest, and which capabilities there are.
-/

namespace Treewalk

/-- How far `break` reaches. -/
inductive BreakPolicy where
  /-- `break` ends the call around it. -/
  | function
  /-- `break` ends the loop around it. -/
  | loop
deriving DecidableEq

/-- What the fault of a host capability becomes. -/
inductive FaultPolicy where
  /-- A value of its own kind. -/
  | value
  /-- A runtime error. -/
  | error
deriving DecidableEq

/-- The settings of the evaluator. -/
structure RunSettings where
  breakPolicy : BreakPolicy
  faultPolicy : FaultPolicy
  maxCallDepth : Nat
deriving DecidableEq

/-- All settings. -/
structure Settings where
  run : RunSettings
  /-- The enabled capabilities by name, as they were given. -/
  natives : List String
  logLevel : String
deriving DecidableEq

namespace Settings

/-- The settings where none are given. -/
def default : Settings where
  run := ⟨.function, .value, 10000⟩
  natives := Native.all.map Native.name
  logLevel := "warn"

end Settings

end Treewalk
