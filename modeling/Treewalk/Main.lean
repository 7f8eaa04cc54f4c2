import Std.Time.DateTime.Timestamp
import Treewalk.Command.Run
import Treewalk.Files.Fault

/-!
# The program

The real world as a `System`, and the program itself. Nothing is decided here: files,
the clock and the terminal are asked, and the answers handed on.
-/

namespace Treewalk

/-- Whether an error code is this one, as it is or with its sign changed. -/
def isCode (expected code : UInt32) : Bool :=
  code = expected || 0 - code = expected

/-- Why a file could not be read, in the words of the operating system. -/
def fileReason : IO.Error → String
  | .noFileOrDirectory .. => Files.Fault.missing.message
  | .inappropriateType _ code details =>
    if isCode 21 code then Files.Fault.isDirectory.message
    else if isCode 20 code then Files.Fault.notDirectory.message
    else details
  | .permissionDenied .. => "Permission denied (os error 13)"
  | error => toString error

/-- Reads the bytes of a file. -/
def readBytes (path : String) : IO (Except String ByteArray) := do
  if path.contains '\x00' then return .error Files.Fault.nulByte.message
  try
    return .ok (← IO.FS.readBinFile path)
  catch error =>
    return .error (fileReason error)

/-- Reads the text of a file. -/
def readText (path : String) : IO (Except String String) := do
  match ← readBytes path with
  | .error reason => return .error reason
  | .ok bytes =>
    match String.fromUTF8? bytes with
    | some text => return .ok text
    | none => return .error Files.Fault.notText.message

/-- The real world. -/
def realSystem : System IO where
  text := readText
  isFile path := do
    match ← readBytes path with
    | .ok _ => return true
    | .error _ => return false
  memoryReport := readText "/proc/meminfo"
  clock := do
    let now ← Std.Time.Timestamp.now
    return Int64.ofInt now.toMillisecondsSinceUnixEpoch.toInt
  readLine := do
    let line ← (← IO.getStdin).getLine
    return if line.isEmpty then none else some (Text.chomp line)
  print text := do
    let stdout ← IO.getStdout
    stdout.putStr text
    stdout.flush
  complain text := do
    (← IO.getStderr).putStr text
  visit := .asPut

end Treewalk

/-- More strides than any run takes. -/
def Treewalk.manyRounds : Nat :=
  1000000000000000

/-- Runs the program. -/
def main (args : List String) : IO UInt32 :=
  Treewalk.Command.respond Treewalk.realSystem Treewalk.manyRounds args
