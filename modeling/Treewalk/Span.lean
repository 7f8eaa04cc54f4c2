/-!
# Places in a source text

A `Span` is a range of bytes of the UTF-8 source, its end excluded. `Located` pairs a
node with its place. Spans are plain pairs: nothing forbids an end before its start, and
such a span is empty.
-/

namespace Treewalk

/-- A range of byte offsets, `stop` excluded. -/
structure Span where
  start : Nat
  stop : Nat
deriving DecidableEq, Inhabited

namespace Span

/-- The smallest span that covers both. -/
def merge (a b : Span) : Span :=
  ⟨min a.start b.start, max a.stop b.stop⟩

/-- The span as it stands in messages. -/
def text (s : Span) : String :=
  toString s.start ++ ".." ++ toString s.stop

end Span

/-- A node together with its place. -/
structure Located (α : Type) where
  node : α
  span : Span
deriving DecidableEq

end Treewalk
