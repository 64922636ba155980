import LazyLisp.Outcome

/-!
# Parameters

Functions and templates both begin with a parameter list, which is written
as a vector of symbols. When a function is called, its parameters are bound
to the arguments in a new frame inside the scope that the function keeps.

## Main results

* `bindParams_of_length_ne` — too few or too many arguments bind nothing.
-/

namespace LazyLisp

/-- The names of a parameter list. The first item that is no symbol is
reported. -/
def readParams : Value → Except Fault (List String)
  | .vector items => names items
  | other => .error (.paramsNotVector other.kind)
where
  /-- The names of all items, up to the first that is no symbol. -/
  names : List Value → Except Fault (List String)
    | [] => .ok []
    | .symbol name :: rest => (names rest).map (name :: ·)
    | other :: _ => .error (.parameterNotSymbol other.kind)

/-- Opens the scope in which a function's body is evaluated: inside the
function's own scope, with the parameters bound to the arguments. -/
def bindParams (params : List String) (scope : Scope) (args : List Value) : Eval Scope :=
  if params.length = args.length then Eval.openInner scope (.ofParams params args)
  else Eval.fail (.closureArity params.length args.length)

/-- With too few or too many arguments no scope is opened. -/
theorem bindParams_of_length_ne {params : List String} {args : List Value}
    (h : params.length ≠ args.length) (scope : Scope) :
    bindParams params scope args = Eval.fail (.closureArity params.length args.length) := by
  simp [bindParams, h]

/-- Calls a function on values and evaluates its body to the end. -/
def callClosure (ev : Evaluator) (params : List String) (body : Value) (scope : Scope)
    (args : List Value) : Eval Value := do
  let inner ← bindParams params scope args
  ev body inner

end LazyLisp
