import Treewalk.Settings.Locate

/-!
# Files that cannot be read
-/

namespace Treewalk.Files

/-- Why a file cannot be read. -/
inductive Fault where
  | missing | isDirectory | notDirectory | notText | nulByte
deriving DecidableEq

/-- The wording of a fault. -/
def Fault.message : Fault → String
  | missing => "No such file or directory (os error 2)"
  | isDirectory => "Is a directory (os error 21)"
  | notDirectory => "Not a directory (os error 20)"
  | notText => "stream did not contain valid UTF-8"
  | nulByte => "file name contained an unexpected NUL byte"

end Treewalk.Files
