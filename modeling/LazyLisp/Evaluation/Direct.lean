import LazyLisp.Evaluation.Evaluate

/-!
# Evaluation by plain recursion

The value of a conditional is that of one of its branches, and the value of
a call is that of the function's body. This is what the evaluator says here:
a call evaluates the branch, the last form, the body or the expansion within
itself and answers its value. Nothing is handed back to be evaluated later,
so no loop goes from form to form, and a failure of a body names the calls
around it, from the inside out, like any other.

What operators do, and the special forms that have a value of their own, is
shared with the stepwise evaluator.

## Main results

* `evaluate_succ` — what the fuel is spent on.
-/

namespace LazyLisp.Direct

open Evaluation (arguments calleeValue primitive?)

/-! ## Special forms -/

/-- Evaluates one of two forms by the value of a condition. -/
def conditionalOf (ev : Evaluator) (scope : Scope) : List Value → Eval Value
  | [condition, positive, negative] => do
      match ← ev condition scope with
      | .boolean true => ev positive scope
      | .boolean false => ev negative scope
      | other => Eval.fail (.conditionNotBoolean other.kind)
  | args => Eval.fail (.primitiveArity (.special .conditional) args.length)

/-- Evaluates forms in turn, each in a scope of its own, and answers the
value of the last one. -/
def sequenceOf (ev : Evaluator) (scope : Scope) : List Value → Eval Value
  | [] => return .nil
  | [last] => do
      let inner ← Eval.openInner scope []
      ev last inner
  | form :: rest => do
      let inner ← Eval.openInner scope []
      let _ ← ev form inner
      sequenceOf ev scope rest

/-- Calls a function on values. Nothing else can be applied. -/
def applyCallee (ev : Evaluator) (values : List Value) : Value → Eval Value
  | .closure _ params body captured => callClosure ev params body captured values
  | other => Eval.fail (.appliedNotFunction other.kind)

/-- Calls what a form names on values. -/
def applyValues (ev : Evaluator) (scope : Scope) (form : Value) (values : List Value) :
    Eval Value :=
  match form with
  | .symbol name =>
      match Primitive.ofName? name with
      | some (.operator op) => op.run ev scope values
      | some (.special special) => Eval.fail (.notApplicable special)
      | none => do
          let callee ← ev form scope
          applyCallee ev values callee
  | .call _ _ _ => do
      let callee ← ev form scope
      applyCallee ev values callee
  | callee => applyCallee ev values callee

/-- Calls a function or an operator on all elements of a sequence. -/
def applyOf (fuel : Nat) (ev : Evaluator) (scope : Scope) : List Value → Eval Value
  | [form, arguments] => do
      let sequence ← SpecialForm.appliedTo ev scope arguments
      if sequence.isSequence then do
        let values ← Cursor.takeAll ev fuel (.before sequence) []
        applyValues ev scope form values
      else Eval.fail (.notSequence (.special .apply) sequence.kind)
  | args => Eval.fail (.primitiveArity (.special .apply) args.length)

/-- The value of a special form on its argument forms. -/
def special (fuel : Nat) (ev : Evaluator) (scope : Scope) (args : List Value) :
    SpecialForm → Eval Value
  | .lazyPair => SpecialForm.lazyPairOf ev scope args
  | .conditional => conditionalOf ev scope args
  | .define => SpecialForm.defineOf ev scope args
  | .sequence => sequenceOf ev scope args
  | .function => SpecialForm.functionOf ev scope args
  | .template => SpecialForm.templateOf ev scope args
  | .apply => applyOf fuel ev scope args

/-! ## Calls and forms -/

/-- The value of a call, with all that is evaluated for it. -/
def call (fuel : Nat) (ev : Evaluator) (scope : Scope) (callee : Value) (args : List Value)
    (span : Span) : Eval Value :=
  match primitive? callee with
  | some (.operator op) => do
      let values ← (arguments ev scope args).within callee args span
      (op.run ev scope values).within callee values span
  | some (.special form) => (special fuel ev scope args form).within callee args span
  | none => do
      let head ← (calleeValue ev scope callee).within callee args span
      match head with
      | .closure _ params body captured => do
          let values ← (arguments ev scope args).within callee args span
          (callClosure ev params body captured values).within callee values span
      | .template params body => do
          let form ← (Eval.ofExcept (Template.expand params body args span)).within callee args span
          (ev form scope).within callee args span
      | other => (Eval.fail (.notCallable other)).within callee args span

/-- The value of a form, by way of the evaluations inside it. -/
def form (fuel : Nat) (ev : Evaluator) (scope : Scope) : Value → Eval Value
  | .symbol name => Eval.lookup name scope
  | .call callee args span => call fuel ev scope callee args span
  | v => pure v

/-- Evaluates a form in a scope. Every evaluation inside another one has a
unit of fuel less. -/
def evaluate : Nat → Value → Scope → Eval Value
  | 0, _, _ => Eval.outOfFuel
  | fuel + 1, v, scope => form fuel (evaluate fuel) scope v

theorem evaluate_succ (fuel : Nat) (v : Value) (scope : Scope) :
    evaluate (fuel + 1) v scope = form fuel (evaluate fuel) scope v := rfl

end LazyLisp.Direct
