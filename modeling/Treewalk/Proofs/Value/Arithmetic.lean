import Mathlib
import Treewalk.Proofs.Value.Operator

/-!
# Laws of arithmetic

Numbers are signed words. A sum, a difference, a product and a negation are exact up to
a multiple of the number of words (`Wraps`), and there is one word with this property. A
quotient is rounded toward zero (`Truncates`); the one quotient that is no word is that
of the least number by `-1`.

Addition also joins strings. It is associative on values of all kinds: both ways to add
three values have a result for the same operands, three numbers or three strings, and it
is the same result.

* `Wraps.iff_eq_bmod`, `Truncates.iff_eq_tdiv` — both properties determine the number.
* `Value.arithmetic_laws` — what the operators give, and why they fail.
-/

namespace Treewalk

variable {divisor : Int} {b : Int64} {a : Int64} {value x y z : Value}

/-! ## Words -/

/-- The word is the exact result, up to a multiple of the number of words. -/
structure Wraps (exact word : Int) : Prop where
  least : -2 ^ 63 ≤ word
  below : word < 2 ^ 63
  congruent : (2 ^ 64 : Int) ∣ word - exact

theorem Wraps.iff_eq_bmod {exact word : Int} :
    Wraps exact word ↔ word = exact.bmod (2 ^ 64) := by
  rw [Int.bmod_def]
  constructor
  · rintro ⟨hleast, hbelow, hcongruent⟩
    omega
  · intro hword
    constructor <;> omega

/-- The quotient is rounded toward zero: what remains is smaller than the divisor, and
it is zero or has the sign of the dividend. -/
def Truncates (dividend divisor quotient : Int) : Prop :=
  ∃ rest, dividend = quotient * divisor + rest ∧ rest.natAbs < divisor.natAbs ∧
    (rest = 0 ∨ rest.sign = dividend.sign)

/-- Two remainders on the same side of zero are less than a divisor apart. -/
private theorem natAbs_sub_lt_of_sign {dividend rest other : Int}
    (hrest : rest.natAbs < divisor.natAbs) (hother : other.natAbs < divisor.natAbs)
    (hsign : rest = 0 ∨ rest.sign = dividend.sign)
    (hsign' : other = 0 ∨ other.sign = dividend.sign) :
    (rest - other).natAbs < divisor.natAbs := by
  rcases hsign with rfl | hsign
  · omega
  · rcases hsign' with rfl | hsign'
    · omega
    · have hsame : rest.sign = other.sign := hsign.trans hsign'.symm
      rcases Int.lt_trichotomy rest 0 with hneg | rfl | hpos
      · have hother : other < 0 :=
          Int.sign_eq_neg_one_iff_neg.1 (hsame ▸ Int.sign_eq_neg_one_iff_neg.2 hneg)
        omega
      · omega
      · have hother : 0 < other :=
          Int.sign_eq_one_iff_pos.1 (hsame ▸ Int.sign_eq_one_iff_pos.2 hpos)
        omega

private theorem truncates_tdiv (dividend : Int) (h : divisor ≠ 0) :
    Truncates dividend divisor (dividend.tdiv divisor) := by
  refine ⟨dividend.tmod divisor, ?_, ?_, ?_⟩
  · rw [Int.mul_comm]
    exact (Int.mul_tdiv_add_tmod dividend divisor).symm
  · rw [Int.natAbs_tmod]
    exact Nat.mod_lt _ (Int.natAbs_pos.2 h)
  · have hsign := Int.sign_tmod dividend divisor
    split at hsign
    · exact .inl (Int.sign_eq_zero_iff_zero.1 hsign)
    · exact .inr hsign

theorem Truncates.iff_eq_tdiv {dividend quotient : Int} (h : divisor ≠ 0) :
    Truncates dividend divisor quotient ↔ quotient = dividend.tdiv divisor := by
  constructor
  · rintro ⟨rest, hdividend, hrest, hsign⟩
    obtain ⟨other, hdividend', hother, hsign'⟩ := truncates_tdiv dividend h
    have happart := natAbs_sub_lt_of_sign hother hrest hsign' hsign
    -- The remainders differ by a multiple of the divisor, and by less than the divisor.
    have hmultiple : (quotient - dividend.tdiv divisor) * divisor = other - rest := by
      rw [Int.sub_mul]
      omega
    rw [← hmultiple, Int.natAbs_mul] at happart
    have hzero : (quotient - dividend.tdiv divisor).natAbs = 0 := by
      refine Nat.eq_zero_of_not_pos fun hpos => ?_
      have hle := Nat.le_mul_of_pos_left divisor.natAbs hpos
      omega
    omega
  · rintro rfl
    exact truncates_tdiv dividend h

/-- A quotient of words is a word, unless the least one is divided by `-1`. -/
private theorem toInt_div_of_not_edge (h : ¬(a.toInt = -2 ^ 63 ∧ b.toInt = -1)) :
    (a / b).toInt = a.toInt.tdiv b.toInt := by
  by_cases ha : a = Int64.minValue
  · refine Int64.toInt_div_of_ne_right a b fun hb => h ⟨?_, ?_⟩
    · rw [ha, Int64.toInt_minValue]
    · rw [hb]
      rfl
  · exact Int64.toInt_div_of_ne_left a b ha

namespace Value

/-! ## Where the operators have a result -/

/-- The operator of an operation. -/
def operatorOf : Arithmetic → BinaryOp
  | .add => .add
  | .sub => .sub
  | .mul => .mul
  | .div => .div

private theorem binary_operatorOf (op : Arithmetic) (left right : Value) :
    left.binary (operatorOf op) right = arithmetic op left right := by
  cases op <;> rfl

/-- Numbers and strings are added, each to their own kind. -/
private theorem add_eq_ok_iff {left right : Value} :
    left.binary .add right = .ok value ↔
    (∃ a b, left = number a ∧ right = number b ∧ value = number (a + b)) ∨
      ∃ a b, left = string a ∧ right = string b ∧ value = string (a ++ b) := by
  constructor
  · intro h
    simp only [binary, arithmetic] at h
    split at h
    · cases h
      exact .inl ⟨_, _, rfl, rfl, rfl⟩
    · cases h
      exact .inr ⟨_, _, rfl, rfl, rfl⟩
    · cases h
  · rintro (⟨a, b, rfl, rfl, rfl⟩ | ⟨a, b, rfl, rfl, rfl⟩) <;> rfl

/-- An operation fails because of a zero divisor, or because of the kinds of its
operands. -/
private theorem kind_of_arithmetic_error {op : Arithmetic} {left right : Value}
    {cause : Cause} (h : arithmetic op left right = .error cause) :
    cause.kind = .typeError ∨
      cause.kind = .divisionByZero ∧ op = .div ∧ left.kind = .number ∧
        right = number 0 := by
  unfold arithmetic at h
  split at h
  · cases op with
    | div =>
      simp only [arithmeticNumbers] at h
      split at h
      · rename_i hzero
        cases h
        exact .inr ⟨rfl, rfl, rfl, by rw [hzero]⟩
      · cases h
    | _ => cases h
  · cases op <;> cases h <;> exact .inl rfl
  · cases h
    exact .inl rfl

/-! ## Three operands -/

/-- `(x + y) + z` -/
def addLeft (x y z : Value) : Except Cause Value := do
  let sum ← x.binary .add y
  sum.binary .add z

/-- `x + (y + z)` -/
def addRight (x y z : Value) : Except Cause Value := do
  let sum ← y.binary .add z
  x.binary .add sum

/-- The value is the sum of three numbers, or three strings joined. -/
def SumOf (x y z value : Value) : Prop :=
  (∃ a b c, x = number a ∧ y = number b ∧ z = number c ∧ value = number (a + b + c)) ∨
    ∃ a b c, x = string a ∧ y = string b ∧ z = string c ∧ value = string (a ++ b ++ c)

private theorem bind_eq_ok_iff {α β : Type} {result : Except Cause α}
    {next : α → Except Cause β} {b : β} :
    (result >>= next) = .ok b ↔ ∃ a, result = .ok a ∧ next a = .ok b := by
  cases result with
  | error cause => exact ⟨nofun, nofun⟩
  | ok a =>
    constructor
    · intro h
      exact ⟨a, rfl, h⟩
    · rintro ⟨a', ha, h⟩
      cases ha
      exact h

private theorem addLeft_eq_ok_iff : addLeft x y z = .ok value ↔ SumOf x y z value := by
  unfold addLeft
  rw [bind_eq_ok_iff]
  constructor
  · rintro ⟨sum, hsum, hvalue⟩
    rcases add_eq_ok_iff.1 hsum with ⟨a, b, rfl, rfl, rfl⟩ | ⟨a, b, rfl, rfl, rfl⟩
    · rcases add_eq_ok_iff.1 hvalue with ⟨_, c, hleft, rfl, rfl⟩ | ⟨_, _, hkind, -⟩
      · cases hleft
        exact .inl ⟨a, b, c, rfl, rfl, rfl, rfl⟩
      · cases hkind
    · rcases add_eq_ok_iff.1 hvalue with ⟨_, _, hkind, -⟩ | ⟨_, c, hleft, rfl, rfl⟩
      · cases hkind
      · cases hleft
        exact .inr ⟨a, b, c, rfl, rfl, rfl, rfl⟩
  · rintro (⟨a, b, c, rfl, rfl, rfl, rfl⟩ | ⟨a, b, c, rfl, rfl, rfl, rfl⟩)
    · exact ⟨number (a + b), rfl, rfl⟩
    · exact ⟨string (a ++ b), rfl, rfl⟩

private theorem addRight_eq_ok_iff :
    addRight x y z = .ok value ↔ SumOf x y z value := by
  unfold addRight
  rw [bind_eq_ok_iff]
  constructor
  · rintro ⟨sum, hsum, hvalue⟩
    rcases add_eq_ok_iff.1 hsum with ⟨b, c, rfl, rfl, rfl⟩ | ⟨b, c, rfl, rfl, rfl⟩
    · rcases add_eq_ok_iff.1 hvalue with ⟨a, _, rfl, hright, rfl⟩ | ⟨_, _, -, hkind, -⟩
      · cases hright
        exact .inl ⟨a, b, c, rfl, rfl, rfl, by rw [Int64.add_assoc]⟩
      · cases hkind
    · rcases add_eq_ok_iff.1 hvalue with ⟨_, _, -, hkind, -⟩ | ⟨a, _, rfl, hright, rfl⟩
      · cases hkind
      · cases hright
        exact .inr ⟨a, b, c, rfl, rfl, rfl, by rw [String.append_assoc]⟩
  · rintro (⟨a, b, c, rfl, rfl, rfl, rfl⟩ | ⟨a, b, c, rfl, rfl, rfl, rfl⟩)
    · refine ⟨number (b + c), rfl, ?_⟩
      rw [Int64.add_assoc]
      rfl
    · refine ⟨string (b ++ c), rfl, ?_⟩
      rw [String.append_assoc]
      rfl

/-- All of the values are of the kind. -/
def AllOf (kind : Kind) (values : List Value) : Prop :=
  ∀ value ∈ values, value.kind = kind

private theorem exists_sumOf_iff :
    (∃ value, SumOf x y z value) ↔ AllOf .number [x, y, z] ∨
      AllOf .string [x, y, z] := by
  have hthree : ∀ kind, AllOf kind [x, y, z] ↔ x.kind = kind ∧ y.kind = kind ∧
      z.kind = kind := by
    intro kind
    simp [AllOf]
  rw [hthree, hthree]
  constructor
  · rintro ⟨_, ⟨a, b, c, rfl, rfl, rfl, -⟩ | ⟨a, b, c, rfl, rfl, rfl, -⟩⟩
    · exact .inl ⟨rfl, rfl, rfl⟩
    · exact .inr ⟨rfl, rfl, rfl⟩
  · rintro (⟨hx, hy, hz⟩ | ⟨hx, hy, hz⟩)
    · obtain ⟨a, rfl⟩ := exists_number_of_kind hx
      obtain ⟨b, rfl⟩ := exists_number_of_kind hy
      obtain ⟨c, rfl⟩ := exists_number_of_kind hz
      exact ⟨_, .inl ⟨a, b, c, rfl, rfl, rfl, rfl⟩⟩
    · obtain ⟨a, rfl⟩ := exists_string_of_kind hx
      obtain ⟨b, rfl⟩ := exists_string_of_kind hy
      obtain ⟨c, rfl⟩ := exists_string_of_kind hz
      exact ⟨_, .inr ⟨a, b, c, rfl, rfl, rfl, rfl⟩⟩

/-! ## Division -/

private theorem binary_div_zero (a : Int64) :
    (number a).binary .div (number 0) = .error .divisionByZero := by
  simp [binary, arithmetic, arithmeticNumbers]

private theorem binary_div_of_ne_zero (a : Int64) (h : b ≠ 0) :
    (number a).binary .div (number b) = .ok (number (a / b)) := by
  simp [binary, arithmetic, arithmeticNumbers, h]

/-- A division of numbers fails exactly if the divisor is zero. -/
theorem binary_div_fails_iff :
    (∃ cause, (number a).binary .div (number b) = .error cause ∧
      cause.kind = .divisionByZero) ↔ b.toInt = 0 := by
  constructor
  · rintro ⟨cause, hfails, -⟩
    by_cases hb : b = 0
    · rw [hb]
      rfl
    · rw [binary_div_of_ne_zero a hb] at hfails
      cases hfails
  · intro hb
    obtain rfl : b = 0 := Int64.toInt_inj.1 hb
    exact ⟨.divisionByZero, binary_div_zero a, rfl⟩

/-- The quotient of the least number by `-1` wraps to the least number. -/
private theorem binary_div_edge (ha : a.toInt = -2 ^ 63) (hb : b.toInt = -1) :
    (number a).binary .div (number b) = .ok (number a) := by
  obtain rfl : a = Int64.minValue := Int64.toInt_inj.1 ha
  obtain rfl : b = -1 := Int64.toInt_inj.1 hb
  rfl

private theorem binary_div_truncates (hb : b.toInt ≠ 0)
    (h : ¬(a.toInt = -2 ^ 63 ∧ b.toInt = -1)) :
    ∃ quotient, (number a).binary .div (number b) = .ok (number quotient) ∧
      ∀ n, Truncates a.toInt b.toInt n ↔ n = quotient.toInt := by
  refine ⟨a / b, binary_div_of_ne_zero a ?_, fun n => ?_⟩
  · rintro rfl
    exact hb rfl
  · rw [toInt_div_of_not_edge h]
    exact Truncates.iff_eq_tdiv hb

/-! ## The laws -/

/-- Sums, differences, products and negations of numbers are the one word that the exact
result wraps to. A division fails if the divisor is zero; otherwise it gives the one
quotient that is rounded toward zero, or the least number where this is divided by `-1`.
Three values can be added either way if all are numbers or all are strings and in no
other case, with the same result. Arithmetic fails for a zero divisor or with a type
error. -/
theorem arithmetic_laws :
    (∀ a b : Int64,
      (∃ sum, (number a).binary .add (number b) = .ok (number sum) ∧
        ∀ n, Wraps (a.toInt + b.toInt) n ↔ n = sum.toInt) ∧
      (∃ difference, (number a).binary .sub (number b) = .ok (number difference) ∧
        ∀ n, Wraps (a.toInt - b.toInt) n ↔ n = difference.toInt) ∧
      (∃ product, (number a).binary .mul (number b) = .ok (number product) ∧
        ∀ n, Wraps (a.toInt * b.toInt) n ↔ n = product.toInt) ∧
      (∃ negation, (number a).unary .neg = .ok (number negation) ∧
        ∀ n, Wraps (-a.toInt) n ↔ n = negation.toInt) ∧
      ((∃ cause, (number a).binary .div (number b) = .error cause ∧
        cause.kind = .divisionByZero) ↔ b.toInt = 0) ∧
      (a.toInt = -2 ^ 63 → b.toInt = -1 →
        (number a).binary .div (number b) = .ok (number a)) ∧
      (b.toInt ≠ 0 → ¬(a.toInt = -2 ^ 63 ∧ b.toInt = -1) →
        ∃ quotient, (number a).binary .div (number b) = .ok (number quotient) ∧
          ∀ n, Truncates a.toInt b.toInt n ↔ n = quotient.toInt)) ∧
    (∀ x y z : Value,
      ((∃ value, addLeft x y z = .ok value) ↔
        AllOf .number [x, y, z] ∨ AllOf .string [x, y, z]) ∧
      ((∃ value, addRight x y z = .ok value) ↔
        AllOf .number [x, y, z] ∨ AllOf .string [x, y, z]) ∧
      ∀ value, addLeft x y z = .ok value ↔ addRight x y z = .ok value) ∧
    (∀ (op : Arithmetic) (x y : Value) (cause : Cause),
      x.binary (operatorOf op) y = .error cause →
        cause.kind = .typeError ∨
          cause.kind = .divisionByZero ∧ op = .div ∧ x.kind = .number ∧ y = number 0) ∧
    ∀ (x : Value) (cause : Cause), x.unary .neg = .error cause →
      cause.kind = .typeError := by
  refine ⟨fun a b => ⟨?_, ?_, ?_, ?_, ?_, ?_, ?_⟩, fun x y z => ⟨?_, ?_, ?_⟩, ?_, ?_⟩
  · exact ⟨a + b, rfl, fun n => by rw [Wraps.iff_eq_bmod, Int64.toInt_add]⟩
  · exact ⟨a - b, rfl, fun n => by rw [Wraps.iff_eq_bmod, Int64.toInt_sub]⟩
  · exact ⟨a * b, rfl, fun n => by rw [Wraps.iff_eq_bmod, Int64.toInt_mul]⟩
  · exact ⟨-a, rfl, fun n => by rw [Wraps.iff_eq_bmod, Int64.toInt_neg]⟩
  · exact binary_div_fails_iff
  · exact binary_div_edge
  · exact binary_div_truncates
  · rw [← exists_sumOf_iff]
    exact exists_congr fun value => addLeft_eq_ok_iff
  · rw [← exists_sumOf_iff]
    exact exists_congr fun value => addRight_eq_ok_iff
  · intro value
    rw [addLeft_eq_ok_iff, addRight_eq_ok_iff]
  · intro op x y cause hfails
    rw [binary_operatorOf] at hfails
    exact kind_of_arithmetic_error hfails
  · intro x cause hfails
    unfold unary at hfails
    split at hfails <;> cases hfails
    rfl

/-- A quotient of a negative number, and the one that wraps. -/
theorem arithmetic_laws_edges :
    (∃ quotient, (number (-7)).binary .div (number 2) = .ok (number quotient) ∧
        quotient.toInt = -3) ∧
      (number Int64.minValue).binary .div (number (-1)) =
        .ok (number Int64.minValue) ∧
      Cause.kind (.mixedArithmetic .add .string .number) = .typeError := by
  refine ⟨?_, (arithmetic_laws.1 Int64.minValue (-1)).2.2.2.2.2.1 rfl rfl, ?_⟩
  · obtain ⟨quotient, hquotient, hunique⟩ :=
      (arithmetic_laws.1 (-7) 2).2.2.2.2.2.2 (by decide) (by decide)
    refine ⟨quotient, hquotient, ((hunique (-3)).1 ⟨-1, rfl, by decide, .inr rfl⟩).symm⟩
  · rcases arithmetic_laws.2.2.1 .add (string "7") (number 2) _ rfl
      with htype | ⟨hkind, -⟩
    · exact htype
    · cases hkind

end Value

end Treewalk
