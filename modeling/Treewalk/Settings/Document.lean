import Treewalk.Error.Basic
import Treewalk.Settings.Basic
import Treewalk.Toml.Document

/-!
# Settings as a document

Settings are written in three sections, `runtime`, `natives` and `log`. Every section
and every entry may be left out and then has its default; an entry that there is not,
and a value of the wrong kind, make the whole document unfit. Which capabilities there
are is not looked at here.
-/

namespace Treewalk

/-- The policy of that name. -/
def BreakPolicy.ofName? : String → Option BreakPolicy
  | "function" => some .function
  | "loop" => some .loop
  | _ => none

/-- The policy of that name. -/
def FaultPolicy.ofName? : String → Option FaultPolicy
  | "value" => some .value
  | "error" => some .error
  | _ => none

namespace Settings

/-- Reads an entry, or takes its default where it is absent. -/
def entry {α : Type} (default : α) (read : Toml → Option α) : Option Toml → Option α
  | none => some default
  | some value => read value

/-- Reads the section on runs. -/
def runSection? (value : Toml) : Option RunSettings := do
  let standard := Settings.default.run
  match ← value.record? ["break_policy", "native_faults", "max_call_depth"] with
  | [breakPolicy, faultPolicy, maxCallDepth] =>
    return ⟨← entry standard.breakPolicy (fun v => v.choice? >>= BreakPolicy.ofName?)
      breakPolicy, ← entry standard.faultPolicy
      (fun v => v.choice? >>= FaultPolicy.ofName?) faultPolicy,
      ← entry standard.maxCallDepth Toml.natural? maxCallDepth⟩
  | _ => none

/-- Reads the section on capabilities. -/
def nativesSection? (value : Toml) : Option (List String) := do
  match ← value.record? ["enabled"] with
  | [enabled] =>
    entry Settings.default.natives
      (fun v => v.items? >>= fun items => items.mapM Toml.string?) enabled
  | _ => none

/-- Reads the section on logging. -/
def logSection? (value : Toml) : Option String := do
  match ← value.record? ["level"] with
  | [level] => entry Settings.default.logLevel Toml.string? level
  | _ => none

/-- Reads settings. -/
def ofToml? (value : Toml) : Option Settings := do
  let standard := Settings.default
  match ← value.record? ["runtime", "natives", "log"] with
  | [run, natives, log] =>
    return ⟨← entry standard.run runSection? run,
      ← entry standard.natives nativesSection? natives, ← entry standard.logLevel
      logSection? log⟩
  | _ => none

/-- Reads settings from a text; `origin` says in a message where the text comes from. -/
def parse (origin text : String) : Except Error Settings :=
  match Toml.parse? text >>= ofToml? with
  | some settings => .ok settings
  | none => .error (.config (origin ++ ": TOML parse error"))

end Settings

end Treewalk
