import LazyLisp.Evaluation.Operators

/-!
# The special forms

What each special form does with its argument forms. Those whose value is
that of another form do not evaluate it themselves: they hand it back with
its scope as a `Next`, and the evaluator goes on from there. So a chain of
conditionals, sequences and function bodies runs in constant space.
-/

namespace LazyLisp

/-- What one step of evaluation leads to. -/
inductive Next where
  /-- The evaluation is over. -/
  | value (v : Value)
  /-- The value is that of this form in this scope. -/
  | form (v : Value) (scope : Scope)

namespace SpecialForm

/-- Chooses one of two forms by the value of a condition. -/
def conditionalOf (ev : Evaluator) (scope : Scope) : List Value → Eval Next
  | [condition, positive, negative] => do
      match ← ev condition scope with
      | .boolean true => return .form positive scope
      | .boolean false => return .form negative scope
      | other => Eval.fail (.conditionNotBoolean other.kind)
  | args => Eval.fail (.primitiveArity (.special .conditional) args.length)

/-- Binds a symbol in the global frame, wherever the definition stands, and
answers the symbol. The value is evaluated in a scope of its own. -/
def defineOf (ev : Evaluator) (scope : Scope) : List Value → Eval Value
  | [.symbol name, form] => do
      let inner ← Eval.openInner scope []
      let v ← ev form inner
      Eval.define scope.rootFrame name v
      return .symbol name
  | [other, _] => Eval.fail (.targetNotSymbol other.kind)
  | args => Eval.fail (.primitiveArity (.special .define) args.length)

/-- Evaluates forms in turn, each in a scope of its own; the last one gives
the value. -/
def sequenceOf (ev : Evaluator) (scope : Scope) : List Value → Eval Next
  | [] => return .value .nil
  | [last] => do
      let inner ← Eval.openInner scope []
      return .form last inner
  | form :: rest => do
      let inner ← Eval.openInner scope []
      let _ ← ev form inner
      sequenceOf ev scope rest

/-- The parameters of a function or template: written as a vector, or as a
symbol that names one. -/
def paramsOf (ev : Evaluator) (scope : Scope) : Value → Eval (List String)
  | .symbol name => do
      let v ← ev (.symbol name) scope
      Eval.ofExcept (readParams v)
  | form => Eval.ofExcept (readParams form)

/-- Builds a function that keeps the scope it was written in. -/
def functionOf (ev : Evaluator) (scope : Scope) : List Value → Eval Value
  | [params, body] => do
      let names ← paramsOf ev scope params
      Eval.newClosure names body scope
  | args => Eval.fail (.primitiveArity (.special .function) args.length)

/-- Builds a template. -/
def templateOf (ev : Evaluator) (scope : Scope) : List Value → Eval Value
  | [params, body] => do
      let names ← paramsOf ev scope params
      return .template names body
  | args => Eval.fail (.primitiveArity (.special .template) args.length)

/-- Builds a lazy cell: the head is evaluated now, the rest kept with its
scope for later. -/
def lazyPairOf (ev : Evaluator) (scope : Scope) : List Value → Eval Value
  | [form] => do
      let head ← ev form scope
      return .lastCell head
  | [form, rest] => do
      let head ← ev form scope
      if rest.isPending then return .lazyCell head rest scope
      else Eval.fail (.restNotForm rest.kind)
  | args => Eval.fail (.primitiveArity (.special .lazyPair) args.length)

/-- The sequence whose elements become arguments: a form is evaluated in a
scope of its own, a value stands for itself. -/
def appliedTo (ev : Evaluator) (scope : Scope) (form : Value) : Eval Value :=
  if form.isPending then do
    let inner ← Eval.openInner scope []
    ev form inner
  else pure form

/-- Applies a value to values: only a function can be applied. -/
def applyCallee (values : List Value) : Value → Eval Next
  | .closure _ params body captured => do
      let inner ← bindParams params captured values
      return .form body inner
  | other => Eval.fail (.appliedNotFunction other.kind)

/-- Calls what a form names on values, which are never evaluated again. -/
def applyValues (ev : Evaluator) (scope : Scope) (form : Value) (values : List Value) :
    Eval Next :=
  match form with
  | .symbol name =>
      match Primitive.ofName? name with
      | some (.operator op) => do
          let v ← op.run ev scope values
          return .value v
      | some (.special special) => Eval.fail (.notApplicable special)
      | none => do
          let callee ← ev form scope
          applyCallee values callee
  | .call _ _ _ => do
      let callee ← ev form scope
      applyCallee values callee
  | callee => applyCallee values callee

/-- Calls a function or an operator on all elements of a sequence, which is
walked to its end first. -/
def applyOf (fuel : Nat) (ev : Evaluator) (scope : Scope) : List Value → Eval Next
  | [form, arguments] => do
      let sequence ← appliedTo ev scope arguments
      if sequence.isSequence then do
        let values ← Cursor.takeAll ev fuel (.before sequence) []
        applyValues ev scope form values
      else Eval.fail (.notSequence (.special .apply) sequence.kind)
  | args => Eval.fail (.primitiveArity (.special .apply) args.length)

/-- Runs a special form on its argument forms, in the scope that it stands
in. Fuel bounds the walk along a sequence of arguments. -/
def run (fuel : Nat) (ev : Evaluator) (scope : Scope) (args : List Value) :
    SpecialForm → Eval Next
  | .lazyPair => Next.value <$> lazyPairOf ev scope args
  | .conditional => conditionalOf ev scope args
  | .define => Next.value <$> defineOf ev scope args
  | .sequence => sequenceOf ev scope args
  | .function => Next.value <$> functionOf ev scope args
  | .template => Next.value <$> templateOf ev scope args
  | .apply => applyOf fuel ev scope args

end SpecialForm

end LazyLisp
