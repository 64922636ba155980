/-!
# Kinds of values

Every value of the language has one of thirteen kinds. Messages about a
value that does not fit name its kind, so the spellings here are part of
what a user sees.
-/

namespace LazyLisp

/-- What sort of thing a value is. -/
inductive Kind where
  | integer
  | float
  | boolean
  | string
  | vector
  | pair
  /-- The marker that ends a sequence. -/
  | terminal
  /-- The value of forms that are run for their effect. -/
  | nil
  | symbol
  | closure
  /-- A macro: a form with places to fill in. -/
  | template
  | lazySequence
  | call
deriving DecidableEq, Inhabited

/-- The spelling of a kind in messages. -/
def Kind.name : Kind → String
  | .integer => "integer"
  | .float => "float"
  | .boolean => "boolean"
  | .string => "string"
  | .vector => "vector"
  | .pair => "pair"
  | .terminal => "end"
  | .nil => "nil"
  | .symbol => "symbol"
  | .closure => "closure"
  | .template => "macro"
  | .lazySequence => "lazy sequence"
  | .call => "call"

end LazyLisp
