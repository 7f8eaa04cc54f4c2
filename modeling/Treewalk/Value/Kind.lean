/-!
# Kinds of values

The name that a message gives to the kind of a value.
-/

namespace Treewalk

/-- What sort of thing a value is. -/
inductive Kind where
  | number | string | bool | function | cls | inst | fault | nothing
deriving DecidableEq

namespace Kind

/-- The word for a kind in messages. -/
def text : Kind → String
  | number => "number"
  | string => "string"
  | bool => "bool"
  | function => "function"
  | cls => "class"
  | inst => "instance"
  | fault => "fault"
  | nothing => "nothing"

end Kind

end Treewalk
