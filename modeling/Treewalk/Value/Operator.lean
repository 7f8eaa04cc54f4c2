import Treewalk.Error.Runtime
import Treewalk.Value.Basic

/-!
# Operators on values

Arithmetic is that of signed 64-bit words: it wraps, and division rounds toward zero.
Strings can be joined and nothing else. Only numbers have an order; numbers, strings,
booleans and `nil` can be tested for equality, each equal to values of its own kind
alone.
-/

namespace Treewalk.Value

/-- The result of an operation on two numbers. -/
def arithmeticNumbers : Arithmetic → Int64 → Int64 → Except Cause Value
  | .add, a, b => .ok (number (a + b))
  | .sub, a, b => .ok (number (a - b))
  | .mul, a, b => .ok (number (a * b))
  | .div, a, b => if b = 0 then .error .divisionByZero else .ok (number (a / b))

/-- The result of an operation on two strings. -/
def arithmeticStrings : Arithmetic → String → String → Except Cause Value
  | .add, a, b => .ok (string (a ++ b))
  | op, _, _ => .error (.stringArithmetic op)

/-- The result of an operation. -/
def arithmetic (op : Arithmetic) : Value → Value → Except Cause Value
  | number a, number b => arithmeticNumbers op a b
  | string a, string b => arithmeticStrings op a b
  | left, right => .error (.mixedArithmetic op left.kind right.kind)

/-- The order of two numbers. -/
def order : Value → Value → Except Cause Ordering
  | number a, number b => .ok (compare a b)
  | string _, _ => .error .stringOrder
  | _, string _ => .error .stringOrder
  | left, right => .error (.mixedOrder left.kind right.kind)

/-- Whether a value can be tested for equality. -/
def isComparable (value : Value) : Bool :=
  value.isPrintable || value.kind == .nothing

/-- Whether two values are equal. -/
def equality (left right : Value) : Except Cause Bool :=
  if !left.isComparable then .error (.equalityOf left.kind)
  else if !right.isComparable then .error (.equalityOf right.kind)
  else .ok (left.same right)

/-- The result of a binary operator. -/
def binary : BinaryOp → Value → Value → Except Cause Value
  | .add, left, right => arithmetic .add left right
  | .sub, left, right => arithmetic .sub left right
  | .mul, left, right => arithmetic .mul left right
  | .div, left, right => arithmetic .div left right
  | .eq, left, right => (equality left right).map bool
  | .ne, left, right => (equality left right).map fun equal => bool !equal
  | .gt, left, right => (order left right).map fun o => bool (o == .gt)
  | .ge, left, right => (order left right).map fun o => bool (o != .lt)
  | .lt, left, right => (order left right).map fun o => bool (o == .lt)
  | .le, left, right => (order left right).map fun o => bool (o != .gt)

/-- The result of a unary operator. -/
def unary : UnaryOp → Value → Except Cause Value
  | .neg, number n => .ok (number (-n))
  | .neg, other => .error (.negationOf other.kind)
  | .not, value => .ok (bool !value.isTruthy)

end Treewalk.Value
