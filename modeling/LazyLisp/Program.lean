import LazyLisp.Evaluation.Evaluate
import LazyLisp.Reader

/-!
# Programs

A program is a text that holds one form. To run it is to read the form and
evaluate it in a scope.
-/

namespace LazyLisp

namespace Program

/-- Why a program has no value. -/
inductive Error where
  /-- Its text holds no form, or more than one. -/
  | unreadable (error : Reader.Error)
  /-- Its evaluation failed. -/
  | failed (failure : Failure)

/-- The outcome of an evaluation as that of a program. -/
def outcome {α : Type} : Outcome Failure α → Outcome Error α
  | .done a σ => .done a σ
  | .failed e σ => .failed (.failed e) σ
  | .exhausted => .exhausted

/-- Reads a text and evaluates its form in a scope. -/
def run (fuel : Nat) (source : String) (scope : Scope) (σ : Store) : Outcome Error Value :=
  match Reader.read source with
  | .error error => .failed (.unreadable error) σ
  | .ok form => outcome (Evaluation.evaluate fuel form scope σ)

end Program

end LazyLisp
