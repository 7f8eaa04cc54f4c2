import Treewalk.Files.Path
import Treewalk.Settings.Document

/-!
# Finding settings

Settings are in the file that is asked for, or else in the file of the usual name beside
the script, or else in the one in the working directory; without any of them the
defaults hold. What a file system answers is the caller's matter, who says in which
monad.
-/

namespace Treewalk

/-- What can be asked about files. -/
structure Files (m : Type → Type) where
  /-- The text of a file, or why it cannot be read. -/
  text : String → m (Except String String)
  /-- Whether there is a file. -/
  isFile : String → m Bool

namespace Settings

/-- The name of the file with settings. -/
def fileName : String :=
  "quill.toml"

/-- The places to look for the file, the first one first. -/
def candidates (script : Option String) : List String :=
  match script >>= Path.parent? with
  | some directory => [Path.join directory fileName, fileName]
  | none => [fileName]

section

variable {m : Type → Type} [Monad m]

/-- The first of some paths that leads to a file. -/
def firstFile (files : Files m) : List String → m (Option String)
  | [] => return none
  | path :: rest => do
    if ← files.isFile path then return some path
    else firstFile files rest

/-- The file with settings for a script, if there is one. -/
def discover (files : Files m) (script : Option String) : m (Option String) :=
  firstFile files (candidates script)

/-- Reads settings from a file. -/
def load (files : Files m) (path : String) : m (Except Error Settings) := do
  match ← files.text path with
  | .error reason => return .error (.config (path ++ ": " ++ reason))
  | .ok text => return parse path text

/-- The settings for a script, from the file that is asked for or from the one that is
found. -/
def resolve (files : Files m) (explicit script : Option String) :
    m (Except Error Settings) := do
  match explicit with
  | some path => load files path
  | none =>
    match ← discover files script with
    | some path => load files path
    | none => return .ok Settings.default

end

end Settings

end Treewalk
