import LazyLisp.Evaluation.SpecialForms
import LazyLisp.Template

/-!
# Evaluation

A form is evaluated step by step: a symbol is looked up, a call is carried
out as far as its own work goes, and any other value is its own result. A
step either ends with a value or leads to another form in some scope. The
evaluation of arguments, conditions and callees inside a step is given to
it as a parameter, so that a single definition, `evaluate`, closes the
recursion; fuel makes it total.

## Main results

* `evaluate_eq_bind` — one step, and then the form that it leads to.
-/

namespace LazyLisp

namespace Evaluation

/-- The values of argument forms, evaluated from left to right in one
scope. -/
def arguments (ev : Evaluator) (scope : Scope) : List Value → Eval (List Value)
  | [] => pure []
  | form :: rest => do
      let v ← ev form scope
      let values ← arguments ev scope rest
      return v :: values

/-- What a callee is: a function or a template stands for itself, any other
form is evaluated. -/
def calleeValue (ev : Evaluator) (scope : Scope) : Value → Eval Value
  | .closure serial params body captured => pure (.closure serial params body captured)
  | .template params body => pure (.template params body)
  | form => ev form scope

/-- The primitive that a callee names. No binding hides a primitive. -/
def primitive? : Value → Option Primitive
  | .symbol name => Primitive.ofName? name
  | _ => none

/-- One call. A failure shows the call with its argument forms until these
have been evaluated, and with their values after that. -/
def call (fuel : Nat) (ev : Evaluator) (scope : Scope) (callee : Value) (args : List Value)
    (span : Span) : Eval Next :=
  match primitive? callee with
  | some (.operator op) => do
      let values ← (arguments ev scope args).within callee args span
      let v ← (op.run ev scope values).within callee values span
      return .value v
  | some (.special special) => (special.run fuel ev scope args).within callee args span
  | none => do
      let head ← (calleeValue ev scope callee).within callee args span
      match head with
      | .closure _ params body captured => do
          let values ← (arguments ev scope args).within callee args span
          let inner ← (bindParams params captured values).within callee values span
          return .form body inner
      | .template params body => do
          let form ← (Eval.ofExcept (Template.expand params body args span)).within callee args span
          return .form form scope
      | other => (Eval.fail (.notCallable other)).within callee args span

/-- One step of evaluation. -/
def step (fuel : Nat) (ev : Evaluator) (scope : Scope) : Value → Eval Next
  | .symbol name => do
      let v ← Eval.lookup name scope
      return .value v
  | .call callee args span => call fuel ev scope callee args span
  | v => pure (.value v)

/-- Evaluates a form in a scope. Every step, and every evaluation inside
one, takes a unit of fuel. -/
def evaluate : Nat → Value → Scope → Eval Value
  | 0, _, _, _ => .exhausted
  | fuel + 1, form, scope, σ =>
      match step fuel (evaluate fuel) scope form σ with
      | .done (.value v) τ => .done v τ
      | .done (.form next inner) τ => evaluate fuel next inner τ
      | .failed e τ => .failed e τ
      | .exhausted => .exhausted

/-- What is left to do after a step. -/
def resume (ev : Evaluator) : Next → Eval Value
  | .value v => pure v
  | .form form scope => ev form scope

/-- To evaluate is to make one step and to go on from where it leads. -/
theorem evaluate_eq_bind (fuel : Nat) (form : Value) (scope : Scope) :
    evaluate (fuel + 1) form scope =
      step fuel (evaluate fuel) scope form >>= resume (evaluate fuel) := by
  funext σ
  cases h : step fuel (evaluate fuel) scope form σ with
  | done next τ =>
      rw [Eval.bind_done h, evaluate, h]
      cases next <;> rfl
  | failed e τ => rw [Eval.bind_failed h, evaluate, h]
  | exhausted => rw [Eval.bind_exhausted h, evaluate, h]

end Evaluation

end LazyLisp
