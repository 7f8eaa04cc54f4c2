import Treewalk.Value.Basic

/-!
# Call frames

Every call has a frame, a table of values by name that is read before the scopes are.
Only the top frame is ever read or written; frames do not see each other. The stack
keeps its depth, so that a call can be held against the limit without a walk over the
stack.
-/

namespace Treewalk

/-- The frame of one call. -/
structure Frame where
  name : String
  values : Table Value

/-- The frames of the calls under way, the innermost first. -/
structure Frames where
  list : List Frame
  depth : Nat
  depth_eq : depth = list.length

namespace Frames

/-- No call under way. -/
def empty : Frames :=
  ⟨[], 0, rfl⟩

/-- A new frame without values on top. -/
def push (frames : Frames) (name : String) : Frames :=
  ⟨⟨name, []⟩ :: frames.list, frames.depth + 1, by simp [frames.depth_eq]⟩

/-- The stack without its top frame. -/
def pop (frames : Frames) : Frames :=
  ⟨frames.list.tail, frames.depth - 1, by simp [frames.depth_eq]⟩

/-- The top frame. -/
def top? (frames : Frames) : Option Frame :=
  frames.list.head?

/-- Changes the values of the top frame. -/
def modifyTop (f : Table Value → Table Value) : Frames → Frames
  | ⟨[], depth, h⟩ => ⟨[], depth, h⟩
  | ⟨frame :: rest, depth, h⟩ => ⟨⟨frame.name, f frame.values⟩ :: rest, depth, h⟩

/-- Puts a value into the top frame. -/
def add (frames : Frames) (name : String) (value : Value) : Frames :=
  frames.modifyTop (Table.put name value)

/-- Puts several values into the top frame. -/
def addAll (frames : Frames) (entries : List (String × Value)) : Frames :=
  frames.modifyTop fun values => values.putAll entries

/-- The value under a name in the top frame. -/
def get? (frames : Frames) (name : String) : Option Value :=
  frames.top?.bind fun frame => frame.values.get? name

/-- The names of the frames, the innermost first. -/
def names (frames : Frames) : List String :=
  frames.list.map Frame.name

/-! ## What each operation does to the list -/

@[simp] theorem list_push (frames : Frames) (name : String) :
    (frames.push name).list = ⟨name, []⟩ :: frames.list := rfl

@[simp] theorem list_pop (frames : Frames) : frames.pop.list = frames.list.tail := rfl

theorem list_modifyTop {frames : Frames} {frame : Frame} {rest : List Frame}
    (h : frames.list = frame :: rest) (f : Table Value → Table Value) :
    (frames.modifyTop f).list = ⟨frame.name, f frame.values⟩ :: rest := by
  obtain ⟨list, depth, hdepth⟩ := frames
  cases h
  rfl

@[simp] theorem depth_modifyTop (f : Table Value → Table Value) (frames : Frames) :
    (frames.modifyTop f).depth = frames.depth := by
  obtain ⟨list, depth, h⟩ := frames
  cases list <;> rfl

end Frames

end Treewalk
