/-!
# Names in order

Lists of names are shown in the order of their code points, repeats kept.
-/

namespace Treewalk.Text

/-- The names in order. -/
def sorted (names : List String) : List String :=
  names.mergeSort fun a b => decide (a ≤ b)

end Treewalk.Text
