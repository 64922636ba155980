import LazyLisp.Decimal.FloatText
import LazyLisp.Kind

/-!
# Numbers: 64-bit integers and floats

A number is a 64-bit integer or a double-precision float. Where the two
meet the integer widens to a float; a float never narrows back. Integer
arithmetic is exact: it is done on unbounded integers and fails when the
result leaves the 64-bit range.

## Main results

* `toInt_ofInt?` — an integer that fits is kept exactly.
* `ofInt?_eq_none_iff` — the others are exactly those out of range.
-/

namespace LazyLisp

/-- An integer of 64 bits or a double-precision float. -/
inductive Number where
  | integer (n : Int64)
  | float (x : Float)
deriving Inhabited

namespace Number

/-! ## Integers that fit -/

/-- The 64-bit integer of this value, if the range holds it. -/
def ofInt? (n : Int) : Option Int64 :=
  if Int64.minValue.toInt ≤ n ∧ n ≤ Int64.maxValue.toInt then some (Int64.ofInt n) else none

/-- An integer that is represented keeps its value. -/
theorem toInt_ofInt? {n : Int} {k : Int64} (h : ofInt? n = some k) : k.toInt = n := by
  unfold ofInt? at h
  split at h
  · rename_i range
    cases h
    exact Int64.toInt_ofInt_of_le range.1 (by
      have := range.2
      have size : Int64.maxValue.toInt = 2 ^ 63 - 1 := by decide
      omega)
  · cases h

/-- Not represented are the integers outside 64 bits. -/
theorem ofInt?_eq_none_iff {n : Int} :
    ofInt? n = none ↔ n < Int64.minValue.toInt ∨ Int64.maxValue.toInt < n := by
  unfold ofInt?
  split <;> simp only [reduceCtorEq, false_iff, true_iff] <;> omega

theorem ofInt?_toInt (k : Int64) : ofInt? k.toInt = some k := by
  unfold ofInt?
  rw [if_pos ⟨Int64.minValue_le_toInt k, Int64.toInt_le k⟩]
  simp

/-! ## Basic views -/

/-- The kind of a number as a value. -/
def kind : Number → Kind
  | .integer _ => .integer
  | .float _ => .float

/-- The text of a number as a value. -/
def text : Number → String
  | .integer n => n.toInt.repr
  | .float x => Decimal.FloatStyle.value.text x

/-- The float nearest to an integer. -/
def toFloat (n : Int64) : Float :=
  if n.toInt < 0 then -n.toInt.natAbs.toUInt64.toFloat else n.toInt.natAbs.toUInt64.toFloat

/-- A number as a float. -/
def widen : Number → Float
  | .integer n => toFloat n
  | .float x => x

/-! ## Arithmetic -/

/-- Why an operation on two numbers has no result. -/
inductive Fault where
  /-- The exact result of `(operator a b)` is out of range. -/
  | overflow (operator : String) (a b : Int64)
  | divisionByZero
  | remainderByZero
  /-- A remainder was asked for where not both numbers are integers. -/
  | notIntegers (a b : Kind)
deriving DecidableEq

/-- Whether a fault concerns the kinds of the operands, not their values. -/
def Fault.isAboutKinds : Fault → Bool
  | .notIntegers _ _ => true
  | _ => false

/-- The wording of a fault. -/
def Fault.message : Fault → String
  | .overflow operator a b =>
      "integer overflow in (" ++ operator ++ " " ++ a.toInt.repr ++ " " ++ b.toInt.repr ++ ")"
  | .divisionByZero => "division by zero"
  | .remainderByZero => "modulo by zero"
  | .notIntegers a b => "'%' expects integers, got " ++ a.name ++ " and " ++ b.name

/-- Applies the exact operation to two integers, the float operation
otherwise. -/
def combine (operator : String) (exact : Int → Int → Int) (float : Float → Float → Float) :
    Number → Number → Except Fault Number
  | .integer a, .integer b =>
      match ofInt? (exact a.toInt b.toInt) with
      | some n => .ok (.integer n)
      | none => .error (.overflow operator a b)
  | a, b => .ok (.float (float a.widen b.widen))

/-- The sum. -/
def add : Number → Number → Except Fault Number := combine "+" (· + ·) (· + ·)

/-- The difference. -/
def sub : Number → Number → Except Fault Number := combine "-" (· - ·) (· - ·)

/-- The product. -/
def mul : Number → Number → Except Fault Number := combine "*" (· * ·) (· * ·)

/-- The quotient; of integers the one rounded toward zero. No zero divides,
neither an integer nor a float one. -/
def div (a b : Number) : Except Fault Number :=
  if b.widen == 0 then .error .divisionByZero else combine "/" Int.tdiv (· / ·) a b

/-- The remainder of the division toward zero, between integers only. It
fails where that division overflows. -/
def rem : Number → Number → Except Fault Number
  | .integer a, .integer b =>
      if b.toInt = 0 then .error .remainderByZero
      else if ofInt? (Int.tdiv a.toInt b.toInt) = none then .error (.overflow "%" a b)
      else .ok (.integer (Int64.ofInt (Int.tmod a.toInt b.toInt)))
  | a, b => .error (.notIntegers a.kind b.kind)

/-! ## Comparison -/

/-- Whether two numbers are equal, after widening if their kinds differ. -/
def equals : Number → Number → Bool
  | .integer a, .integer b => a == b
  | a, b => a.widen == b.widen

/-- The order of two floats, which a `NaN` does not have. -/
def compareFloats (x y : Float) : Option Ordering :=
  if x < y then some .lt else if x == y then some .eq else if y < x then some .gt else none

/-- The order of two numbers, after widening if their kinds differ. -/
def compare : Number → Number → Option Ordering
  | .integer a, .integer b => some (Ord.compare a.toInt b.toInt)
  | a, b => compareFloats a.widen b.widen

/-- Whether two numbers are the same in kind and value; floats by their own
equality, in which a `NaN` differs from itself and the zeros agree. -/
def identical : Number → Number → Bool
  | .integer a, .integer b => a == b
  | .float x, .float y => x == y
  | _, _ => false

end Number

end LazyLisp
