import LazyLisp.Fault

/-!
# Equality and order of values

The equality that programs use widens integers that meet floats, compares
lists and vectors element by element, and lets the terminal marker equal
the empty list. Between values with no such relation the question itself
is an error, and in a list the first difference or error decides.

`identical` is the finer relation that tells apart all that a program's
text can: kinds of numbers, spans of calls, functions by their number.

## Main results

* `allEqual_nil` — two empty rows are equal.
* `cellsEqual_eq_allEqual` — chains are compared as the rows of their
  elements.
-/

namespace LazyLisp

namespace Value

mutual

/-- Whether two values are equal in the language. -/
def equals : Value → Value → Except Fault Bool
  | .number a, .number b => .ok (a.equals b)
  | .boolean a, .boolean b => .ok (a == b)
  | .string a, .string b => .ok (a == b)
  | .terminal, .terminal => .ok true
  | .terminal, .pair cells => .ok cells.isEmpty
  | .pair cells, .terminal => .ok cells.isEmpty
  | .vector a, .vector b => if a.length = b.length then allEqual a b else .ok false
  | .pair a, .pair b =>
      if a.toList.length = b.toList.length then cellsEqual a b.toList else .ok false
  | a, b => .error (.noEquality a.kind b.kind)

/-- Whether two rows of one length agree, place by place, up to the first
difference or error. -/
def allEqual : List Value → List Value → Except Fault Bool
  | a :: as, b :: bs =>
      match a.equals b with
      | .ok true => allEqual as bs
      | other => other
  | _, _ => .ok true

/-- The same for a chain and a row. -/
def cellsEqual : Chain Value → List Value → Except Fault Bool
  | .last a, b :: _ => a.equals b
  | .cell a as, b :: bs =>
      match a.equals b with
      | .ok true => cellsEqual as bs
      | other => other
  | _, _ => .ok true

end

@[simp] theorem allEqual_nil : allEqual [] [] = .ok true := by
  simp [allEqual]

/-- A chain is compared as the row of its elements. -/
theorem cellsEqual_eq_allEqual (cells : Chain Value) (items : List Value) :
    cellsEqual cells items = allEqual cells.toList items := by
  induction cells generalizing items with
  | empty => cases items <;> simp [cellsEqual, allEqual]
  | last a =>
      cases items with
      | nil => simp [cellsEqual, allEqual]
      | cons b bs =>
          simp only [cellsEqual, Chain.toList_last, allEqual]
          split <;> simp_all
  | cell a as ih =>
      cases items with
      | nil => simp [cellsEqual, allEqual]
      | cons b bs => simp only [cellsEqual, Chain.toList_cell, allEqual, ih]

/-- The order of two values in the language: that of numbers, or of strings
by code points. -/
def compareTo : Value → Value → Except Fault Ordering
  | .number a, .number b =>
      match a.compare b with
      | some order => .ok order
      | none => .error (.unordered a b)
  | .string a, .string b => .ok (Ord.compare a b)
  | a, b => .error (.noOrder a.kind b.kind)

mutual

/-- Whether two values have the same kind and the same content. Functions
are the same only if they are one object; the scope of a deferred form is
left out. -/
def identical : Value → Value → Bool
  | .number a, .number b => a.identical b
  | .boolean a, .boolean b => a == b
  | .string a, .string b => a == b
  | .vector a, .vector b => allIdentical a b
  | .pair a, .pair b => cellsIdentical a b
  | .terminal, .terminal => true
  | .nil, .nil => true
  | .symbol a, .symbol b => a == b
  | .closure a _ _ _, .closure b _ _ _ => a == b
  | .template ps a, .template qs b => ps == qs && a.identical b
  | .lastCell a, .lastCell b => a.identical b
  | .lazyCell a r _, .lazyCell b s _ => a.identical b && r.identical s
  | .call f as s, .call g bs t => f.identical g && allIdentical as bs && s == t
  | _, _ => false

/-- Whether two rows have the same length and identical elements. -/
def allIdentical : List Value → List Value → Bool
  | [], [] => true
  | a :: as, b :: bs => a.identical b && allIdentical as bs
  | _, _ => false

/-- Whether two chains have the same cells with identical elements. -/
def cellsIdentical : Chain Value → Chain Value → Bool
  | .empty, .empty => true
  | .last a, .last b => a.identical b
  | .cell a as, .cell b bs => a.identical b && cellsIdentical as bs
  | _, _ => false

end

end Value

end LazyLisp
