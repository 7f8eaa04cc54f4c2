import Treewalk.Native.Host
import Treewalk.Value.Operator

/-!
# What operators and capabilities answer

An operator gives a value that can be compared, never a function, class or instance; so
does a capability. Where an operator does not apply, its error is about the operands
(`ErrorKind.isOperand`), not about a name, a capability or the depth of calls.
-/

namespace Treewalk

variable {value : Value}

/-- Whether an error of this kind is about the operands of an operator. -/
def ErrorKind.isOperand : ErrorKind → Bool
  | .typeError => true
  | .divisionByZero => true
  | _ => false

theorem ErrorKind.ne_of_isOperand {kind other : ErrorKind} (h : kind.isOperand = true)
    (hother : other.isOperand = false) : kind ≠ other := by
  rintro rfl
  rw [h] at hother
  cases hother

namespace Value

variable {left right operand : Value} {cause : Cause} {op : BinaryOp}

theorem exists_number_of_kind (h : value.kind = .number) : ∃ n, value = number n := by
  cases value with
  | number n => exact ⟨n, rfl⟩
  | _ => cases h

theorem exists_string_of_kind (h : value.kind = .string) : ∃ s, value = string s := by
  cases value with
  | string s => exact ⟨s, rfl⟩
  | _ => cases h

private theorem arithmetic_ok {op : Arithmetic}
    (h : arithmetic op left right = .ok value) : value.isComparable = true := by
  unfold arithmetic at h
  split at h
  · cases op <;> simp only [arithmeticNumbers] at h <;> (try split at h) <;>
      cases h <;> rfl
  · cases op <;> cases h
    rfl
  · cases h

theorem arithmetic_error {op : Arithmetic}
    (h : arithmetic op left right = .error cause) :
    cause.kind.isOperand = true := by
  unfold arithmetic at h
  split at h
  · cases op <;> simp only [arithmeticNumbers] at h <;> (try split at h) <;> cases h
    rfl
  · cases op <;> cases h <;> rfl
  · cases h
    rfl

private theorem order_error (h : order left right = .error cause) :
    cause.kind.isOperand = true := by
  unfold order at h
  split at h <;> cases h <;> rfl

private theorem equality_error (h : equality left right = .error cause) :
    cause.kind.isOperand = true := by
  unfold equality at h
  split at h
  · cases h
    rfl
  · split at h <;> cases h
    rfl

private theorem ok_of_map_bool {α : Type} {result : Except Cause α} {f : α → Bool}
    (h : (result.map fun a => .bool (f a)) = .ok value) :
    value.isComparable = true := by
  cases result with
  | error cause => cases h
  | ok a =>
    cases h
    rfl

theorem error_of_map {α β : Type} {result : Except Cause α} {f : α → β}
    (h : result.map f = .error cause) :
    result = .error cause := by
  cases result with
  | error cause' => exact congrArg Except.error (Except.error.inj h)
  | ok a => cases h

theorem binary_ok (h : left.binary op right = .ok value) :
    value.isComparable = true := by
  cases op with
  | add => exact arithmetic_ok h
  | sub => exact arithmetic_ok h
  | mul => exact arithmetic_ok h
  | div => exact arithmetic_ok h
  | _ => exact ok_of_map_bool h

theorem isOperand_of_binary (h : left.binary op right = .error cause) :
    cause.kind.isOperand = true := by
  cases op with
  | add => exact arithmetic_error h
  | sub => exact arithmetic_error h
  | mul => exact arithmetic_error h
  | div => exact arithmetic_error h
  | eq => exact equality_error (error_of_map h)
  | ne => exact equality_error (error_of_map h)
  | _ => exact order_error (error_of_map h)

theorem binary_error (h : left.binary op right = .error cause) :
    cause.kind ≠ .bindingError :=
  ErrorKind.ne_of_isOperand (isOperand_of_binary h) rfl

theorem unary_ok {op : UnaryOp} (h : operand.unary op = .ok value) :
    value.isComparable = true := by
  unfold unary at h
  split at h <;> cases h <;> rfl

theorem isOperand_of_unary {op : UnaryOp} (h : operand.unary op = .error cause) :
    cause.kind.isOperand = true := by
  unfold unary at h
  split at h <;> cases h
  rfl

theorem unary_error {op : UnaryOp} (h : operand.unary op = .error cause) :
    cause.kind ≠ .bindingError :=
  ErrorKind.ne_of_isOperand (isOperand_of_unary h) rfl

end Value

theorem Native.dispatch_ok {natives : List Native} {answers : Answers} {name : String}
    {args : List Value} (h : Native.dispatch natives answers name args = .ok value) :
    value.isComparable = true := by
  unfold Native.dispatch at h
  split at h
  · cases h
  · split at h
    · unfold Native.invoke at h
      split at h
      · cases h
        rfl
      · split at h <;> cases h
        rfl
      · cases h
      · split at h
        · cases h
        · split at h <;> cases h
          rfl
    · cases h

end Treewalk
