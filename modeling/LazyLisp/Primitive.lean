/-!
# Primitives: the names with built-in meaning

The language has two sorts of built-in names. An *operator* receives the
values of its arguments, evaluated from left to right; a *special form*
receives the argument forms as they stand. A primitive name in callee
position always means the primitive, whatever is bound to it.

## Main results

* `Primitive.ofName?_name` — every primitive is found under its name.
* `Primitive.name_of_ofName?` — and nothing else is found there.
* `Primitive.mem_all` — the table is complete.
-/

namespace LazyLisp

/-- A primitive whose arguments are evaluated before it is run. -/
inductive Operator where
  | add
  | subtract
  | multiply
  | divide
  | remainder
  | equal
  | less
  | lessEqual
  | greater
  | greaterEqual
  | cons
  | first
  | tail
  | isEmpty
  | filter
  | map
  | print
  | range
  | take
deriving DecidableEq, Inhabited

/-- A primitive that decides itself what to evaluate, and where. -/
inductive SpecialForm where
  | lazyPair
  | conditional
  | define
  | sequence
  | function
  | template
  | apply
deriving DecidableEq, Inhabited

/-- A built-in name of either sort. -/
inductive Primitive where
  | operator (op : Operator)
  | special (form : SpecialForm)
deriving DecidableEq, Inhabited

/-- The spelling of an operator. -/
def Operator.name : Operator → String
  | .add => "+"
  | .subtract => "-"
  | .multiply => "*"
  | .divide => "/"
  | .remainder => "%"
  | .equal => "="
  | .less => "<"
  | .lessEqual => "<="
  | .greater => ">"
  | .greaterEqual => ">="
  | .cons => "cons"
  | .first => "first"
  | .tail => "tail"
  | .isEmpty => "empty"
  | .filter => "filter"
  | .map => "map"
  | .print => "print"
  | .range => "range"
  | .take => "take"

/-- All operators, in the order in which they are listed to a user. -/
def Operator.all : List Operator :=
  [.add, .subtract, .multiply, .divide, .remainder, .equal, .less, .lessEqual, .greater,
   .greaterEqual, .cons, .first, .tail, .isEmpty, .filter, .map, .print, .range, .take]

/-- The spelling of a special form. -/
def SpecialForm.name : SpecialForm → String
  | .lazyPair => "lazypair"
  | .conditional => "if"
  | .define => "def"
  | .sequence => "do"
  | .function => "fn"
  | .template => "macro"
  | .apply => "apply"

/-- All special forms, in the order in which they are listed to a user. -/
def SpecialForm.all : List SpecialForm :=
  [.lazyPair, .conditional, .define, .sequence, .function, .template, .apply]

namespace Primitive

/-- The spelling of a primitive. -/
def name : Primitive → String
  | .operator op => op.name
  | .special form => form.name

/-- All primitives: the operators, then the special forms. -/
def all : List Primitive := Operator.all.map .operator ++ SpecialForm.all.map .special

/-- The primitive that a name means, if it is a built-in one. -/
def ofName? (name : String) : Option Primitive := all.find? fun p => p.name == name

theorem mem_all (p : Primitive) : p ∈ all := by
  cases p with
  | operator op => cases op <;> decide
  | special form => cases form <;> decide

/-- A primitive is found under its name. -/
theorem ofName?_name (p : Primitive) : ofName? p.name = some p := by
  cases p with
  | operator op => cases op <;> decide
  | special form => cases form <;> decide

/-- A primitive is found under no other name. -/
theorem name_of_ofName? {name : String} {p : Primitive} (h : ofName? name = some p) :
    p.name = name := by
  have := List.find?_some h
  simpa using this

end Primitive

/-! ## Numbers of arguments -/

/-- How many arguments a primitive takes. -/
inductive Arity where
  | exactly (n : Nat)
  | atLeast (n : Nat)
  | atMost (n : Nat)
  | between (low high : Nat)
  | any
deriving DecidableEq

/-- The wording of an arity, as what a call should have had. -/
def Arity.text : Arity → String
  | .exactly n => "exactly " ++ n.repr
  | .atLeast n => "at least " ++ n.repr
  | .atMost n => "at most " ++ n.repr
  | .between low high => "between " ++ low.repr ++ " and " ++ high.repr
  | .any => "any number of"

/-- The number of arguments that an operator takes. -/
def Operator.arity : Operator → Arity
  | .add | .subtract | .multiply | .divide => .atLeast 1
  | .remainder | .equal | .less | .lessEqual | .greater | .greaterEqual => .exactly 2
  | .cons => .atMost 2
  | .first | .tail | .isEmpty => .exactly 1
  | .filter | .map | .range | .take => .exactly 2
  | .print => .any

/-- The number of forms that a special form takes. -/
def SpecialForm.arity : SpecialForm → Arity
  | .lazyPair => .between 1 2
  | .conditional => .exactly 3
  | .define | .function | .template | .apply => .exactly 2
  | .sequence => .any

/-- The number of arguments that a primitive takes. -/
def Primitive.arity : Primitive → Arity
  | .operator op => op.arity
  | .special form => form.arity

end LazyLisp
