import Treewalk.Text.Line
import Treewalk.Value.Basic

/-!
# Calling host capabilities

What the capabilities answer depends on the world outside: the clock, the files, the
report on memory. It may change from one call to the next. A `Host` holds the answers to
all calls as data, so that a run is a function of it; each call draws a stamp of its own
and is answered by that.
-/

namespace Treewalk

/-- What the world outside answers at one moment. -/
structure Answers where
  /-- The text of a file, or why it cannot be read. -/
  fileText : String → Except String String
  /-- The report on memory, or why there is none. -/
  memoryReport : Except String String
  /-- Milliseconds since the epoch. -/
  clock : Int64

/-- What the world outside answers to the call with a stamp. -/
structure Host where
  answers : Nat → Answers

/-- No answer to anything. -/
def Answers.none : Answers :=
  ⟨fun _ => .error "", .error "", 0⟩

/-- A host that answers nothing. -/
def Host.silent : Host :=
  ⟨fun _ => .none⟩

namespace Native

/-- The number that digits spell, if there are any and nothing else. -/
def digitsValue? (digits : List Char) : Option Nat :=
  if digits.isEmpty || !digits.all Char.isDigit then none
  else some (digits.foldl (fun n c => 10 * n + (c.toNat - '0'.toNat)) 0)

/-- The number that a word spells, with or without a sign, if a 64-bit word holds it. -/
def signedValue? (word : List Char) : Option Int :=
  let value := match word with
    | '-' :: digits => (digitsValue? digits).map fun n => -(n : Int)
    | '+' :: digits => (digitsValue? digits).map Int.ofNat
    | digits => (digitsValue? digits).map Int.ofNat
  value.filter fun n => decide (Int64.minValue.toInt ≤ n) &&
    decide (n ≤ Int64.maxValue.toInt)

/-- The line of a memory report that tells the free memory, in units of 1024 bytes. -/
def memoryLabel : List Char :=
  "MemAvailable:".toList

/-- The text after the label on the first line that has it. -/
def labelled? (label : List Char) (report : String) : Option (List Char) :=
  (Text.lines report).findSome? fun line =>
    if label.isPrefixOf line.toList then some (line.toList.drop label.length) else none

/-- The free bytes that a memory report tells, held within a 64-bit word. -/
def freeBytes? (report : String) : Option Int64 := do
  let rest ← labelled? memoryLabel report
  let word := (rest.dropWhile Text.isSpace).takeWhile fun c => !Text.isSpace c
  let kilobytes ← signedValue? word
  let bytes := kilobytes * 1024
  return Int64.ofInt (max Int64.minValue.toInt (min Int64.maxValue.toInt bytes))

/-- What a capability answers to arguments of the right number. -/
def invoke (answers : Answers) : Native → List Value → Except NativeFault Value
  | clock, _ => .ok (.number answers.clock)
  | fileOpen, .string path :: _ =>
    match answers.fileText path with
    | .ok text => .ok (.string text)
    | .error reason => .error ⟨fileOpen.name, path ++ ": " ++ reason⟩
  | fileOpen, _ => .error ⟨fileOpen.name, "expected a path string"⟩
  | availableMemory, _ =>
    match answers.memoryReport with
    | .error reason =>
      .error ⟨availableMemory.name, "unsupported on this platform: " ++ reason⟩
    | .ok report =>
      match freeBytes? report with
      | some bytes => .ok (.number bytes)
      | none => .error ⟨availableMemory.name, "MemAvailable not reported"⟩

/-- Calls an enabled capability by name. -/
def dispatch (natives : List Native) (answers : Answers) (name : String)
    (args : List Value) :
    Except NativeFault Value :=
  match named? name natives with
  | none => .error ⟨name, "no such native capability"⟩
  | some native =>
    if args.length = native.arity then native.invoke answers args
    else .error
      ⟨native.name, "expects " ++ toString native.arity ++ " argument(s), got " ++
        toString args.length⟩

end Native

end Treewalk
