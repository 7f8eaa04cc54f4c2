import Treewalk.Proofs.Heap.Links
import Treewalk.Proofs.Value.Operator

/-!
# Laws of comparison

Two values are the same if they have the same `Identity`: what they are, for numbers,
strings and booleans; the name, for capabilities; and for all that is made in a run the
stamp or address that was drawn when it was made. So sameness is an equivalence, and
since nothing that is made gets an identity that was given away before (`Heap.Knows`),
it tells apart what was made apart.

The operators look at less: equality is for what can be written down, order for numbers
alone. The four readings of order are those of the order of integers, and all other
operands are refused with a type error.

* `Value.same_iff` — sameness is equality of identities.
* `Value.order_number` — the order of numbers.
* `Value.comparison_laws` — what the operators give, and what they refuse.
-/

namespace Treewalk

variable {x y : Value}

/-! ## Identity -/

/-- What tells a value apart from others of its kind. -/
inductive Identity where
  | number (n : Int64)
  | string (s : String)
  | bool (b : Bool)
  | function (stamp : Nat)
  /-- A class that was wrapped as a callable. -/
  | constructor (stamp : Nat)
  | native (name : String)
  | cls (stamp : Nat)
  | inst (address : Nat)
  | fault (stamp : Nat)
  | nothing
deriving DecidableEq

/-- The identity of a value. -/
def Value.identity : Value → Identity
  | number n => .number n
  | string s => .string s
  | bool b => .bool b
  | callable (.function f) => .function f.stamp
  | callable (.cls c) => .constructor c.stamp
  | callable (.native n) => .native n.name
  | cls c => .cls c.stamp
  | inst i => .inst i.address
  | fault stamp _ => .fault stamp
  | nothing => .nothing

/-- The kind of the values with an identity. -/
def Identity.kind : Identity → Kind
  | number _ => .number
  | string _ => .string
  | bool _ => .bool
  | function _ => .function
  | constructor _ => .function
  | native _ => .function
  | cls _ => .cls
  | inst _ => .inst
  | fault _ => .fault
  | nothing => .nothing

private theorem Native.name_inj {a b : Native} : a.name = b.name ↔ a = b := by
  cases a <;> cases b <;> decide

namespace Value

private theorem kind_identity (value : Value) : value.identity.kind = value.kind := by
  cases value with
  | callable callable => cases callable <;> rfl
  | _ => rfl

private theorem callable_same_iff {a b : Callable} :
    a.same b = true ↔ (callable a).identity = (callable b).identity := by
  cases a <;> cases b <;> simp [Callable.same, identity, Native.name_inj]

/-- Values are the same if their identities are. -/
theorem same_iff : x.same y = true ↔ x.identity = y.identity := by
  cases x with
  | callable a =>
    cases y with
    | callable b => exact callable_same_iff
    | _ => cases a <;> simp [same, identity]
  | _ =>
    cases y with
    | callable b => cases b <;> simp [same, identity]
    | _ => simp [same, identity]

private theorem same_equivalence : Equivalence fun x y : Value => x.same y = true where
  refl _ := same_iff.2 rfl
  symm h := same_iff.2 (same_iff.1 h).symm
  trans h h' := same_iff.2 ((same_iff.1 h).trans (same_iff.1 h'))

private theorem kind_eq_of_same (h : x.same y = true) : x.kind = y.kind := by
  rw [← kind_identity, ← kind_identity, same_iff.1 h]

end Value

/-- The identity is one that the heap has given away, or one that is not the heap's to
give. -/
def Heap.Knows (heap : Heap) : Identity → Prop
  | .function stamp => stamp < heap.nextStamp
  | .constructor stamp => stamp < heap.nextStamp
  | .cls stamp => stamp < heap.nextStamp
  | .fault stamp => stamp < heap.nextStamp
  | .inst address => address < heap.fields.size
  | _ => True

/-- The value is new: it is the same as none whose identity the heap knew, and
afterwards its identity is known. -/
structure Heap.Made (before : Heap) (value : Value) (after : Heap) : Prop where
  new : ∀ other : Value, before.Knows other.identity → other.same value = false
  known : after.Knows value.identity

namespace Heap

private theorem made_of_not_knows {before after : Heap} {value : Value}
    (hnew : ¬before.Knows value.identity) (hknown : after.Knows value.identity) :
    before.Made value after where
  new other hother := by
    refine Bool.eq_false_iff.2 fun hsame => hnew ?_
    rw [← Value.same_iff.1 hsame]
    exact hother
  known := hknown

variable (heap : Heap)

include heap

private theorem made_makeFunction (decl : FunctionDecl) (closure : ScopeId)
    (isInit : Bool) :
    heap.Made (.callable (.function (heap.makeFunction decl closure isInit).1))
      (heap.makeFunction decl closure isInit).2 :=
  made_of_not_knows (Nat.lt_irrefl heap.nextStamp) (Nat.lt_succ_self heap.nextStamp)

private theorem made_bind (method : Function) (receiver : Value) :
    heap.Made (.callable (.function (heap.bind method receiver).1))
      (heap.bind method receiver).2 :=
  made_of_not_knows (Nat.lt_irrefl heap.nextStamp) (Nat.lt_succ_self heap.nextStamp)

private theorem made_makeInstance (cls : Class) :
    heap.Made (.inst (heap.makeInstance cls).1) (heap.makeInstance cls).2 := by
  refine made_of_not_knows (Nat.lt_irrefl heap.fields.size) ?_
  simp [Knows, Value.identity, makeInstance]

private theorem made_makeClass (name : String) (superclass : Option Class)
    (methods : List FunctionDecl) (closure : ScopeId) :
    heap.Made (.cls (heap.makeClass name superclass methods closure).1)
      (heap.makeClass name superclass methods closure).2 := by
  -- Methods are made before their class.
  have hmethods : heap.Edits (fun _ _ => False)
      (makeMethods closure ([], heap) methods).2 :=
    .makeMethods closure methods .none
  exact made_of_not_knows (Nat.not_lt.2 hmethods.nextStamp_le)
    (Nat.lt_succ_self (makeMethods closure ([], heap) methods).2.nextStamp)

private theorem made_fault (fault : NativeFault) :
    heap.Made (.fault heap.draw.1 fault) heap.draw.2 :=
  made_of_not_knows (Nat.lt_irrefl heap.nextStamp) (Nat.lt_succ_self heap.nextStamp)

end Heap

namespace Value

/-! ## Equality -/

/-- The kinds of values that can be written down. -/
def written : List Kind :=
  [.number, .string, .bool, .nothing]

/-- The result is an error about the kinds of the operands. -/
def Refused (result : Except Cause Value) : Prop :=
  ∃ cause, result = .error cause ∧ cause.kind = .typeError

theorem isComparable_iff {value : Value} :
    value.isComparable = true ↔ value.kind ∈ written := by
  cases value <;> simp [isComparable, isPrintable, kind, written]

private theorem equality_of_written (hx : x.kind ∈ written) (hy : y.kind ∈ written) :
    equality x y = .ok (x.same y) := by
  simp [equality, isComparable_iff.2 hx, isComparable_iff.2 hy]

private theorem equality_of_not_written (h : ¬(x.kind ∈ written ∧ y.kind ∈ written)) :
    ∃ kind, equality x y = .error (.equalityOf kind) := by
  unfold equality
  by_cases hx : x.kind ∈ written
  · have hy : y.isComparable = false := by
      rw [← Bool.not_eq_true, isComparable_iff]
      exact fun hy => h ⟨hx, hy⟩
    exact ⟨y.kind, by simp [isComparable_iff.2 hx, hy]⟩
  · have hx : x.isComparable = false := by
      rw [← Bool.not_eq_true, isComparable_iff]
      exact hx
    exact ⟨x.kind, by simp [hx]⟩

/-! ## Order -/

private theorem compare_toInt (a b : Int64) :
    compare a b = compare a.toInt b.toInt := by
  show compareOfLessAndEq a b = compareOfLessAndEq a.toInt b.toInt
  simp only [compareOfLessAndEq, Int64.lt_iff_toInt_lt, Int64.toInt_inj]

/-- Numbers are ordered as integers. -/
theorem order_number (a b : Int64) :
    order (number a) (number b) = .ok (compare a.toInt b.toInt) := by
  rw [order, compare_toInt]

private theorem order_of_not_number (h : ¬(x.kind = .number ∧ y.kind = .number)) :
    ∃ cause, order x y = .error cause ∧ cause.kind = .typeError := by
  unfold order
  split
  · exact absurd ⟨rfl, rfl⟩ h
  · exact ⟨_, rfl, rfl⟩
  · exact ⟨_, rfl, rfl⟩
  · exact ⟨_, rfl, rfl⟩

/-- The operators that read the order of two values. -/
def orderings : List BinaryOp :=
  [.lt, .le, .gt, .ge]

private theorem binary_ordering {op : BinaryOp} (h : op ∈ orderings) :
    ∃ reads : Ordering → Bool, ∀ x y : Value, x.binary op y = (order x y).map fun o =>
      bool (reads o) := by
  simp only [orderings, List.mem_cons, List.not_mem_nil, or_false] at h
  rcases h with rfl | rfl | rfl | rfl
  · exact ⟨_, fun x y => rfl⟩
  · exact ⟨_, fun x y => rfl⟩
  · exact ⟨_, fun x y => rfl⟩
  · exact ⟨_, fun x y => rfl⟩

/-- What the operators say of two numbers. -/
theorem binary_number (a b : Int64) :
    (number a).binary .lt (number b) = .ok (bool (a.toInt < b.toInt)) ∧
      (number a).binary .le (number b) = .ok (bool (a.toInt ≤ b.toInt)) ∧
      (number a).binary .gt (number b) = .ok (bool (b.toInt < a.toInt)) ∧
      (number a).binary .ge (number b) = .ok (bool (b.toInt ≤ a.toInt)) ∧
      (number a).binary .eq (number b) = .ok (bool (a.toInt = b.toInt)) := by
  have hequality : (number a).binary .eq (number b) =
      .ok (bool (a.toInt = b.toInt)) := by
    have hsame : (number a).same (number b) = decide (a.toInt = b.toInt) := by
      simp [same, Int64.toInt_inj, Bool.beq_eq_decide_eq]
    rw [binary, equality_of_written List.mem_cons_self List.mem_cons_self, hsame]
    rfl
  refine ⟨?_, ?_, ?_, ?_, hequality⟩
  all_goals
    simp only [binary, order_number, Except.map, compare, compareOfLessAndEq,
      Except.ok.injEq, bool.injEq]
    rcases Int.lt_trichotomy a.toInt b.toInt with hlt | heq | hgt
    · simp [hlt, Int.le_of_lt hlt, Int.not_le.2 hlt, Int.lt_asymm hlt]
    · simp [heq]
    · simp [hgt, Int.le_of_lt hgt, Int.not_le.2 hgt, Int.lt_asymm hgt,
        (Int.ne_of_lt hgt).symm]

/-- The operator gives `true`. -/
def Says (op : BinaryOp) (x y : Value) : Prop :=
  x.binary op y = .ok (bool true)

/-- The operators read one total order on numbers, and its equality. -/
structure OrderLaws (x y z : Value) : Prop where
  exactlyOne : (Says .lt x y ∧ ¬Says .eq x y ∧ ¬Says .gt x y) ∨
    (¬Says .lt x y ∧ Says .eq x y ∧ ¬Says .gt x y) ∨
    (¬Says .lt x y ∧ ¬Says .eq x y ∧ Says .gt x y)
  converse : Says .lt x y ↔ Says .gt y x
  le_iff : Says .le x y ↔ ¬Says .gt x y
  ge_iff : Says .ge x y ↔ ¬Says .lt x y
  lt_trans : Says .lt x y → Says .lt y z → Says .lt x z
  le_trans : Says .le x y → Says .le y z → Says .le x z
  le_antisymm : Says .le x y → Says .le y x → Says .eq x y

private theorem orderLaws_number (a b c : Int64) :
    OrderLaws (number a) (number b) (number c) := by
  have hanswer : ∀ a b : Int64,
      (Says .lt (number a) (number b) ↔ a.toInt < b.toInt) ∧
        (Says .le (number a) (number b) ↔ a.toInt ≤ b.toInt) ∧
      (Says .gt (number a) (number b) ↔ b.toInt < a.toInt) ∧
        (Says .ge (number a) (number b) ↔ b.toInt ≤ a.toInt) ∧
      (Says .eq (number a) (number b) ↔ a.toInt = b.toInt) := by
    intro a b
    obtain ⟨hlt, hle, hgt, hge, heq⟩ := binary_number a b
    simp [Says, hlt, hle, hgt, hge, heq]
  constructor <;> simp only [hanswer] <;> omega

/-! ## The laws -/

/-- Sameness is an equivalence that never holds across kinds; it is equality of
identities, and what a run makes is new. Equality and its negation are for two values
that can be written down, and give sameness and its negation; all other operands are
refused. The orderings are for two numbers, where they read the order of integers, and
all other operands are refused. -/
theorem comparison_laws :
    ((Equivalence fun x y : Value => x.same y = true) ∧
      (∀ x y : Value, x.same y = true → x.kind = y.kind) ∧
      (∀ x y : Value, x.same y = true ↔ x.identity = y.identity) ∧
      ∀ heap : Heap,
        (∀ decl closure isInit,
          heap.Made (.callable (.function (heap.makeFunction decl closure isInit).1))
            (heap.makeFunction decl closure isInit).2) ∧
        (∀ method receiver,
          heap.Made (.callable (.function (heap.bind method receiver).1))
            (heap.bind method receiver).2) ∧
        (∀ name superclass methods closure,
          heap.Made (.cls (heap.makeClass name superclass methods closure).1)
            (heap.makeClass name superclass methods closure).2) ∧
        (∀ cls, heap.Made (.inst (heap.makeInstance cls).1) (heap.makeInstance cls).2) ∧
        ∀ fault, heap.Made (.fault heap.draw.1 fault) heap.draw.2) ∧
    (∀ x y : Value,
      (x.kind ∈ written ∧ y.kind ∈ written →
        x.binary .eq y = .ok (bool (x.same y)) ∧
          x.binary .ne y = .ok (bool !(x.same y))) ∧
      (¬(x.kind ∈ written ∧ y.kind ∈ written) →
        Refused (x.binary .eq y) ∧ Refused (x.binary .ne y))) ∧
    (∀ x y : Value, ∀ op ∈ orderings,
      (x.kind = .number ∧ y.kind = .number → ∃ b, x.binary op y = .ok (bool b)) ∧
      (¬(x.kind = .number ∧ y.kind = .number) → Refused (x.binary op y))) ∧
    ∀ x y z : Value, x.kind = .number → y.kind = .number → z.kind = .number →
      OrderLaws x y z := by
  refine ⟨⟨same_equivalence, fun x y => kind_eq_of_same, fun x y => same_iff,
    fun heap =>
    ⟨heap.made_makeFunction, heap.made_bind, heap.made_makeClass,
      heap.made_makeInstance, heap.made_fault⟩⟩,
    fun x y => ⟨?_, ?_⟩, fun x y op hop => ⟨?_, ?_⟩, ?_⟩
  · rintro ⟨hx, hy⟩
    constructor <;> rw [binary, equality_of_written hx hy] <;> rfl
  · intro h
    obtain ⟨kind, hrefused⟩ := equality_of_not_written h
    constructor <;> exact ⟨.equalityOf kind, by rw [binary, hrefused]; rfl, rfl⟩
  · rintro ⟨hx, hy⟩
    obtain ⟨reads, hreads⟩ := binary_ordering hop
    obtain ⟨a, rfl⟩ := exists_number_of_kind hx
    obtain ⟨b, rfl⟩ := exists_number_of_kind hy
    exact ⟨_, by rw [hreads, order_number]; rfl⟩
  · intro h
    obtain ⟨reads, hreads⟩ := binary_ordering hop
    obtain ⟨cause, hrefused, hkind⟩ := order_of_not_number h
    exact ⟨cause, by rw [hreads, hrefused]; rfl, hkind⟩
  · intro x y z hx hy hz
    obtain ⟨a, rfl⟩ := exists_number_of_kind hx
    obtain ⟨b, rfl⟩ := exists_number_of_kind hy
    obtain ⟨c, rfl⟩ := exists_number_of_kind hz
    exact orderLaws_number a b c

/-- A class is the same as itself and not as what calls it, but the operators compare
neither; strings are compared and not ordered. -/
theorem comparison_laws_refusals :
    let root : Class := .mk 7 "Root" none []
    (cls root).same (cls root) = true ∧
      (cls root).identity ≠ (callable (.cls root)).identity ∧
      Refused ((cls root).binary .eq (cls root)) ∧
      (string "1").binary .ne (number 1) = .ok (bool true) ∧
      Refused ((string "a").binary .lt (string "b")) ∧
      OrderLaws (number Int64.minValue) (number (-1)) (number 0) := by
  intro root
  obtain ⟨⟨hequivalence, hkinds, hidentity, -⟩, hequality, horder, hlaws⟩ :=
    comparison_laws
  refine ⟨hequivalence.refl _, fun hsame => ?_, ((hequality _ _).2 (by decide)).1,
    ((hequality (string "1") (number 1)).1 (by decide)).2,
      (horder _ _ .lt (by decide)).2 (by decide),
    hlaws _ _ _ rfl rfl rfl⟩
  have hkind := hkinds _ _ ((hidentity _ _).2 hsame)
  cases hkind

end Value

end Treewalk
