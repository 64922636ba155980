import LazyLisp.Chain
import LazyLisp.Number
import LazyLisp.Scope
import LazyLisp.Span

/-!
# Values

Code and data are one type: a program is read into values, and symbols
and calls are the values that still have to be evaluated. A finite list is
a `pair`, which holds its elements in a chain of cells, the empty one
included; `terminal` is what follows its last cell.

A lazy sequence is a cell with an evaluated head. The last cell has
nothing after it; any other one holds the form that produces the rest,
together with the scope that the form was written in.

## Main results

* `isPending_iff` — exactly symbols and calls are still to be evaluated.
* `isSequence_iff` — exactly pairs, lazy sequences and the terminal marker
  can be walked.
-/

namespace LazyLisp

/-- A value of the language, or a form that has yet to be evaluated. -/
inductive Value where
  | number (n : Number)
  | boolean (b : Bool)
  | string (s : String)
  /-- A vector of forms, which are never evaluated on their own. -/
  | vector (items : List Value)
  /-- A finite list, in the order of its elements. -/
  | pair (cells : Chain Value)
  /-- The marker that ends every sequence. -/
  | terminal
  /-- The value of forms that are run for their effect. -/
  | nil
  | symbol (name : String)
  /-- A function with the scope it was written in. Two functions are the
  same only if they carry the same number. -/
  | closure (serial : Nat) (params : List String) (body : Value) (scope : Scope)
  /-- A macro: the body, with the argument forms filled in for the
  parameters, takes the place of a call. -/
  | template (params : List String) (body : Value)
  /-- The last cell of a lazy sequence. -/
  | lastCell (head : Value)
  /-- A cell of a lazy sequence, with the form of the rest and its scope. -/
  | lazyCell (head : Value) (rest : Value) (scope : Scope)
  /-- The call of the callee with argument forms. -/
  | call (callee : Value) (args : List Value) (span : Span)
deriving Inhabited

namespace Value

/-- The integer as a value. -/
def integer (n : Int64) : Value := .number (.integer n)

/-- The float as a value. -/
def float (x : Float) : Value := .number (.float x)

/-- What sort of thing a value is. -/
def kind : Value → Kind
  | .number n => n.kind
  | .boolean _ => .boolean
  | .string _ => .string
  | .vector _ => .vector
  | .pair _ => .pair
  | .terminal => .terminal
  | .nil => .nil
  | .symbol _ => .symbol
  | .closure _ _ _ _ => .closure
  | .template _ _ => .template
  | .lastCell _ => .lazySequence
  | .lazyCell _ _ _ => .lazySequence
  | .call _ _ _ => .call

/-- Whether the value is a form that still has to be evaluated. -/
def isPending : Value → Bool
  | .symbol _ | .call _ _ _ => true
  | _ => false

/-- Whether the value can be walked element by element. -/
def isSequence : Value → Bool
  | .pair _ | .terminal | .lastCell _ | .lazyCell _ _ _ => true
  | _ => false

theorem isPending_iff {v : Value} : v.isPending = true ↔ v.kind = .symbol ∨ v.kind = .call := by
  cases v with
  | number n => cases n <;> simp [isPending, kind, Number.kind]
  | _ => simp [isPending, kind]

theorem isPending_eq_false_of_lazySequence {v : Value} (h : v.kind = .lazySequence) :
    v.isPending = false := by
  cases v <;> first | rfl | cases h

/-- Pairs, lazy sequences and the terminal marker are sequences. -/
theorem isSequence_iff {v : Value} :
    v.isSequence = true ↔ v.kind = .pair ∨ v.kind = .lazySequence ∨ v.kind = .terminal := by
  cases v with
  | number n => cases n <;> simp [isSequence, kind, Number.kind]
  | _ => simp [isSequence, kind]

/-- A lazy sequence of values that are all there already: each cell's rest
is the next cell itself. No values make the terminal marker. -/
def ready (scope : Scope) : List Value → Value
  | [] => .terminal
  | [v] => .lastCell v
  | v :: more => .lazyCell v (ready scope more) scope

end Value

end LazyLisp
