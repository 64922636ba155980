import LazyLisp.Primitive
import LazyLisp.Value.Text

/-!
# Faults: why an evaluation fails

Every way in which an evaluation can fail is one constructor of `Fault`,
with the facts that its message mentions; the wording stands in one place,
`Fault.detail`. A `Failure` adds the innermost call that saw the fault.

## Main results

* `Failure.inCall_fault` — recording a call never changes the fault.
-/

namespace LazyLisp

/-- Why an evaluation fails. -/
inductive Fault where
  /-- Values of these kinds are never compared for equality. -/
  | noEquality (a b : Kind)
  /-- Values of these kinds have no order. -/
  | noOrder (a b : Kind)
  /-- Two numbers have no order: one of them is not a number. -/
  | unordered (a b : Number)
  /-- An arithmetic operation has no result. -/
  | arithmetic (fault : Number.Fault)
  /-- An argument should have been a number. -/
  | notNumber (op : Operator) (position : Nat) (got : Kind)
  /-- An argument should have been an integer. -/
  | notInteger (op : Operator) (position : Nat) (got : Kind)
  /-- The first argument should have been a function. -/
  | notFunction (op : Operator) (got : Kind)
  /-- An argument should have been a pair. -/
  | notPair (op : Operator) (got : Kind)
  /-- An argument should have been a sequence. -/
  | notSequence (p : Primitive) (got : Kind)
  /-- A list can only be continued by a list. -/
  | notList (got : Kind)
  /-- The empty list has no first element. -/
  | firstOfEmpty
  /-- A filter's function has to answer yes or no. -/
  | answerNotBoolean (got : Kind)
  /-- A count of elements is below zero. -/
  | negativeCount (n : Int64)
  /-- The rest of a lazy sequence has to be a form to evaluate later. -/
  | restNotForm (got : Kind)
  /-- The rest of a lazy sequence came out as no sequence. -/
  | restNotSequence (got : Kind)
  /-- A value that is no sequence was walked. -/
  | notWalkable (got : Kind)
  /-- A condition has to be a boolean. -/
  | conditionNotBoolean (got : Kind)
  /-- Only a symbol can be defined. -/
  | targetNotSymbol (got : Kind)
  /-- A parameter has to be a symbol. -/
  | parameterNotSymbol (got : Kind)
  /-- Parameters stand in a vector. -/
  | paramsNotVector (got : Kind)
  /-- A primitive was given a wrong number of arguments. -/
  | primitiveArity (p : Primitive) (given : Nat)
  /-- A function was given a wrong number of arguments. -/
  | closureArity (expected given : Nat)
  /-- A template was given a wrong number of forms. -/
  | templateArity (expected given : Nat)
  /-- A name is bound nowhere in scope. -/
  | unresolved (name : String)
  /-- A call's callee is nothing that can be called. -/
  | notCallable (callee : Value)
  /-- A special form cannot be applied to a sequence of values. -/
  | notApplicable (form : SpecialForm)
  /-- Only functions are applied to a sequence of values. -/
  | appliedNotFunction (got : Kind)

namespace Fault

/-- The five sorts of faults that a user tells apart. -/
inductive Category where
  | type
  | arity
  | reference
  | callability
  | arithmetic
deriving DecidableEq

/-- The sort of a fault. -/
def category : Fault → Category
  | .arithmetic fault => if fault.isAboutKinds then .type else .arithmetic
  | .primitiveArity _ _ | .closureArity _ _ | .templateArity _ _ => .arity
  | .unresolved _ => .reference
  | .notCallable _ | .notApplicable _ | .appliedNotFunction _ => .callability
  | _ => .type

/-- How a message of this sort begins. -/
def Category.label : Category → String
  | .type => "type error: "
  | .arity => "arity error: "
  | .reference => "unresolved reference "
  | .callability => "not callable: "
  | .arithmetic => "arithmetic error: "

/-- A name between quotes. -/
def quoted (name : String) : String := "'" ++ name ++ "'"

/-- What a message says after its label. -/
def detail : Fault → String
  | .noEquality a b => "cannot test " ++ a.name ++ " and " ++ b.name ++ " for equality"
  | .noOrder a b => "cannot compare " ++ a.name ++ " to " ++ b.name
  | .unordered a b => "cannot order " ++ a.text ++ " and " ++ b.text
  | .arithmetic fault => fault.message
  | .notNumber op position got =>
      quoted op.name ++ " expects a number for argument " ++ position.repr ++ ", got " ++ got.name
  | .notInteger op position got =>
      quoted op.name ++ " expects an integer for argument " ++ position.repr ++ ", got "
        ++ got.name
  | .notFunction op got =>
      quoted op.name ++ " expects a function as its first argument, got " ++ got.name
  | .notPair op got => quoted op.name ++ " expects a pair, got " ++ got.name
  | .notSequence p got => quoted p.name ++ " expects a sequence, got " ++ got.name
  | .notList got => "'cons' expects a pair as its second argument, got " ++ got.name
  | .firstOfEmpty => "'first' of an empty pair"
  | .answerNotBoolean got => "'filter' predicate must return a boolean, got " ++ got.name
  | .negativeCount n => "'take' expects a non-negative count, got " ++ n.toInt.repr
  | .restNotForm got => "'lazypair' expects an expression for its tail, got " ++ got.name
  | .restNotSequence got => "lazy tail must produce a sequence, got " ++ got.name
  | .notWalkable got => "expected a sequence, got " ++ got.name
  | .conditionNotBoolean got => "'if' expects a boolean condition, got " ++ got.name
  | .targetNotSymbol got => "'def' expects a symbol to bind, got " ++ got.name
  | .parameterNotSymbol got => "parameter names must be symbols, got " ++ got.name
  | .paramsNotVector got => "expected a parameter vector, got " ++ got.name
  | .primitiveArity p given =>
      quoted p.name ++ " expects " ++ p.arity.text ++ " arguments, got " ++ given.repr
  | .closureArity expected given =>
      "closure expects " ++ expected.repr ++ " arguments, got " ++ given.repr
  | .templateArity expected given =>
      "macro expects " ++ expected.repr ++ " arguments, got " ++ given.repr
  | .unresolved name => quoted name
  | .notCallable callee => callee.text ++ " is a " ++ callee.kind.name
  | .notApplicable form =>
      quoted form.name ++ " takes unevaluated forms and cannot be applied"
  | .appliedNotFunction got => "'apply' expects a function, got " ++ got.name

/-- The wording of a fault. -/
def message (fault : Fault) : String := fault.category.label ++ fault.detail

end Fault

/-- A call as a failure shows it: the callee's text and the arguments, as
forms or as values, depending on how far the call had come. -/
structure CallContext where
  name : String
  args : List Value
  span : Span

/-- The text of a call in a message. -/
def CallContext.text (c : CallContext) : String :=
  "(" ++ Value.spaced (c.name :: Value.texts c.args) ++ ")"

/-- A fault and the innermost call it came out of; there is none when a
name at the top of a program, or of a body, is unbound. -/
structure Failure where
  fault : Fault
  call : Option CallContext

namespace Failure

/-- A fault that no call has seen yet. -/
def of (fault : Fault) : Failure := ⟨fault, none⟩

/-- Records the call that saw the failure, unless an inner one already
did. -/
def inCall (callee : Value) (args : List Value) (span : Span) (f : Failure) : Failure :=
  match f.call with
  | some _ => f
  | none => { f with call := some ⟨callee.text, args, span⟩ }

/-- Recording a call does not change the fault. -/
@[simp] theorem inCall_fault (callee : Value) (args : List Value) (span : Span) (f : Failure) :
    (f.inCall callee args span).fault = f.fault := by
  unfold inCall
  split <;> rfl

/-- The wording of a failure: the fault, and the call if there is one. -/
def message (f : Failure) : String :=
  f.fault.message ++
    match f.call with
    | some c => " in " ++ c.text
    | none => ""

end Failure

end LazyLisp
