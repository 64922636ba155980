import LazyLisp.Parameters
import LazyLisp.Sequence
import LazyLisp.Value.Equality

/-!
# The operators

What each operator does with the values of its arguments. All but a few
are functions of those values alone; `tail` and `take` may force the rest
of a lazy sequence, `filter` and `map` call functions, and `print` prints.

`filter` and `map` go through their list from left to right, each call on
the store that the call before it left, and stop at the first that fails.

## Main results

* `mapOnto_cons`, `filterOnto_cons` — a list is a call on its first element
  and then the same with the others.
* `rangeFrom_past` — past its end a range is one last cell.
-/

namespace LazyLisp.Operator

/-! ## Arguments -/

/-- The fault of a call with a wrong number of arguments. -/
def arityFault (op : Operator) (args : List Value) : Fault :=
  .primitiveArity (.operator op) args.length

/-- The number at an argument's place. -/
def expectNumber (op : Operator) (position : Nat) : Value → Except Fault Number
  | .number n => .ok n
  | other => .error (.notNumber op position other.kind)

/-- The integer at an argument's place. -/
def expectInteger (op : Operator) (position : Nat) : Value → Except Fault Int64
  | .number (.integer n) => .ok n
  | other => .error (.notInteger op position other.kind)

/-! ## Arithmetic -/

/-- An arithmetic result with its fault as one of the evaluation. -/
def arithmeticResult : Except Number.Fault Number → Except Fault Number
  | .ok n => .ok n
  | .error fault => .error (.arithmetic fault)

/-- Goes on with an operation over the arguments from a place on. The
argument is looked at before the operation is done, so of a wrong kind and
a failing operation at one place the kind is reported. -/
def foldNumbers (op : Operator) (f : Number → Number → Except Number.Fault Number)
    (acc : Number) (position : Nat) : List Value → Except Fault Number
  | [] => .ok acc
  | v :: rest => do
      let n ← expectNumber op position v
      let next ← arithmeticResult (f acc n)
      foldNumbers op f next (position + 1) rest

/-- An operation from left to right over one or more numbers. The first
one starts it, so there is no neutral element. -/
def arithmetic (op : Operator) (f : Number → Number → Except Number.Fault Number) :
    List Value → Except Fault Value
  | [] => .error (op.arityFault [])
  | v :: rest => do
      let first ← expectNumber op 1 v
      let result ← foldNumbers op f first 2 rest
      return .number result

/-- The remainder of two integers. -/
def remainderOf : List Value → Except Fault Value
  | [a, b] => do
      let a ← expectNumber .remainder 1 a
      let b ← expectNumber .remainder 2 b
      let result ← arithmeticResult (a.rem b)
      return .number result
  | args => .error (arityFault .remainder args)

/-! ## Comparison -/

/-- Equality of two values. -/
def equality : List Value → Except Fault Value
  | [a, b] => do
      let answer ← a.equals b
      return .boolean answer
  | args => .error (arityFault .equal args)

/-- A test of the order of two values. -/
def comparison (op : Operator) (test : Ordering → Bool) : List Value → Except Fault Value
  | [a, b] => do
      let order ← a.compareTo b
      return .boolean (test order)
  | args => .error (op.arityFault args)

/-! ## Lists -/

/-- The empty list, a list of one element, or a list with an element put
before it. The terminal marker counts as an empty list here. -/
def consOf : List Value → Except Fault Value
  | [] => .ok (.pair .empty)
  | [head] => .ok (.pair (.last head))
  | [head, .terminal] => .ok (.pair (.last head))
  | [head, .pair .empty] => .ok (.pair (.last head))
  | [head, .pair cells] => .ok (.pair (.cell head cells))
  | [_, other] => .error (.notList other.kind)
  | args => .error (arityFault .cons args)

/-- The first element of a list or lazy sequence. -/
def firstOf : List Value → Except Fault Value
  | [.lastCell head] => .ok head
  | [.lazyCell head _ _] => .ok head
  | [.pair cells] =>
      match cells.head? with
      | some head => .ok head
      | none => .error .firstOfEmpty
  | [other] => .error (.notPair .first other.kind)
  | args => .error (arityFault .first args)

/-- What follows the first element. -/
def tailOf (ev : Evaluator) : List Value → Eval Value
  | [.pair cells] =>
      match cells.tail? with
      | some rest => pure (.pair rest)
      | none => pure .terminal
  | [v] =>
      match forceTail? ev v with
      | some forced => forced
      | none => Eval.fail (.notPair .tail v.kind)
  | args => Eval.fail (arityFault .tail args)

/-- Whether a sequence has no elements. -/
def emptiness : List Value → Except Fault Value
  | [.terminal] => .ok (.boolean true)
  | [.pair cells] => .ok (.boolean cells.isEmpty)
  | [.lastCell _] => .ok (.boolean false)
  | [.lazyCell _ _ _] => .ok (.boolean false)
  | [other] => .error (.notSequence (.operator .isEmpty) other.kind)
  | args => .error (arityFault .isEmpty args)

/-! ## Functions over lists -/

/-- Calls on every element in turn; `done` holds the answers so far, the
latest first. -/
def mapOnto (call : Value → Eval Value) : List Value → List Value → Eval (List Value)
  | answers, [], σ => .done answers.reverse σ
  | answers, v :: rest, σ =>
      match call v σ with
      | .done answer τ => mapOnto call (answer :: answers) rest τ
      | .failed e τ => .failed e τ
      | .exhausted => .exhausted

/-- Keeps the elements for which the call answers true; `kept` holds the
ones so far, the latest first. -/
def filterOnto (call : Value → Eval Value) : List Value → List Value → Eval (List Value)
  | kept, [], σ => .done kept.reverse σ
  | kept, v :: rest, σ =>
      match call v σ with
      | .done (.boolean true) τ => filterOnto call (v :: kept) rest τ
      | .done (.boolean false) τ => filterOnto call kept rest τ
      | .done other τ => .failed (.of (.answerNotBoolean other.kind)) τ
      | .failed e τ => .failed e τ
      | .exhausted => .exhausted

theorem mapOnto_cons (call : Value → Eval Value) (answers : List Value) (v : Value)
    (rest : List Value) :
    mapOnto call answers (v :: rest) =
      (call v >>= fun answer => mapOnto call (answer :: answers) rest) := by
  funext σ
  cases h : call v σ with
  | done answer τ => rw [Eval.bind_done h, mapOnto, h]
  | failed e τ => rw [Eval.bind_failed h, mapOnto, h]
  | exhausted => rw [Eval.bind_exhausted h, mapOnto, h]

theorem filterOnto_cons (call : Value → Eval Value) (kept : List Value) (v : Value)
    (rest : List Value) :
    filterOnto call kept (v :: rest) = (call v >>= fun
      | .boolean true => filterOnto call (v :: kept) rest
      | .boolean false => filterOnto call kept rest
      | other => Eval.fail (.answerNotBoolean other.kind)) := by
  funext σ
  cases h : call v σ with
  | done answer τ =>
      rw [Eval.bind_done h, filterOnto, h]
      cases answer with
      | boolean b => cases b <;> rfl
      | _ => rfl
  | failed e τ => rw [Eval.bind_failed h, filterOnto, h]
  | exhausted => rw [Eval.bind_exhausted h, filterOnto, h]

/-- Runs a function over a list, after checking that these are what the two
arguments are. -/
def overList (op : Operator) (ev : Evaluator)
    (loop : (Value → Eval Value) → List Value → List Value → Eval (List Value)) :
    List Value → Eval Value
  | [.closure _ params body scope, .pair cells] => do
      let results ← loop (fun v => callClosure ev params body scope [v]) [] cells.toList
      return .pair (.ofList results)
  | [.closure _ _ _ _, other] => Eval.fail (.notPair op other.kind)
  | [other, _] => Eval.fail (.notFunction op other.kind)
  | args => Eval.fail (op.arityFault args)

/-! ## Lazy sequences -/

/-- The range from an integer up to another one: a cell with the first and
a call for the others, which needs no scope but a global one. At its end,
or past it, a range is the end alone. -/
def rangeFrom (low high : Int64) (scope : Scope) : Value :=
  if low.toInt < high.toInt then
    .lazyCell (.integer low)
      (.call (.symbol Operator.range.name) [.integer (low + 1), .integer high] .nowhere)
      scope.root
  else .lastCell (.integer high)

/-- Past its end a range is one last cell. -/
theorem rangeFrom_past {low high : Int64} (h : ¬ low.toInt < high.toInt) (scope : Scope) :
    rangeFrom low high scope = .lastCell (.integer high) := by
  simp [rangeFrom, h]

/-- The range between two integers. -/
def rangeOf (scope : Scope) : List Value → Except Fault Value
  | [low, high] => do
      let low ← expectInteger .range 1 low
      let high ← expectInteger .range 2 high
      return rangeFrom low high scope
  | args => .error (arityFault .range args)

/-- The first so many elements of a sequence, or all of them if there are
fewer, as a lazy sequence with nothing left to evaluate. -/
def takeOf (ev : Evaluator) (scope : Scope) : List Value → Eval Value
  | [count, sequence] => do
      let count ← Eval.ofExcept (expectInteger .take 1 count)
      if count.toInt < 0 then Eval.fail (.negativeCount count)
      else if sequence.isSequence then do
        let items ← Cursor.takeFrom ev count.toInt.toNat (.before sequence) []
        return Value.ready scope.root items
      else Eval.fail (.notSequence (.operator .take) sequence.kind)
  | args => Eval.fail (arityFault .take args)

/-! ## All of them -/

/-- Prints the texts of the values on one line. -/
def printLine (args : List Value) : Eval Value := do
  Eval.print (Value.spaced (Value.texts args))
  return .nil

/-- Runs an operator on the values of its arguments. The scope is the one
that the operator was called in. -/
def run (ev : Evaluator) (scope : Scope) (args : List Value) : Operator → Eval Value
  | .add => Eval.ofExcept (arithmetic .add Number.add args)
  | .subtract => Eval.ofExcept (arithmetic .subtract Number.sub args)
  | .multiply => Eval.ofExcept (arithmetic .multiply Number.mul args)
  | .divide => Eval.ofExcept (arithmetic .divide Number.div args)
  | .remainder => Eval.ofExcept (remainderOf args)
  | .equal => Eval.ofExcept (equality args)
  | .less => Eval.ofExcept (comparison .less Ordering.isLT args)
  | .lessEqual => Eval.ofExcept (comparison .lessEqual Ordering.isLE args)
  | .greater => Eval.ofExcept (comparison .greater Ordering.isGT args)
  | .greaterEqual => Eval.ofExcept (comparison .greaterEqual Ordering.isGE args)
  | .cons => Eval.ofExcept (consOf args)
  | .first => Eval.ofExcept (firstOf args)
  | .tail => tailOf ev args
  | .isEmpty => Eval.ofExcept (emptiness args)
  | .filter => overList .filter ev filterOnto args
  | .map => overList .map ev mapOnto args
  | .print => printLine args
  | .range => Eval.ofExcept (rangeOf scope args)
  | .take => takeOf ev scope args

end LazyLisp.Operator
