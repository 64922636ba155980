import LazyLisp.Fault
import LazyLisp.Store

/-!
# Outcomes of evaluation

An evaluation takes a store to an outcome: a value and the store after it,
a failure and the store at that point, or neither, when it was not given
enough fuel to come to an end. Running out of fuel is no failure of the
program and carries no store.

## Main results

* `bind_done`, `bind_failed`, `bind_exhausted` — how a computation goes on
  after each outcome.
* `within_done` — naming the call around a computation changes failures
  only.
-/

namespace LazyLisp

/-- How a computation on the store ends. -/
inductive Outcome (ε α : Type) where
  /-- It ended with a result. -/
  | done (result : α) (store : Store)
  /-- It ended with an error; what it did before stays done. -/
  | failed (error : ε) (store : Store)
  /-- It did not end within the fuel it was given. -/
  | exhausted

/-- It ended, with a result or with an error, and this is the store after
it. -/
def Outcome.EndsIn {ε α : Type} (o : Outcome ε α) (τ : Store) : Prop :=
  (∃ a, o = .done a τ) ∨ ∃ e, o = .failed e τ

/-- A computation of the evaluator. -/
def Eval (α : Type) : Type := Store → Outcome Failure α

namespace Eval

/-- The computation that does nothing and answers a value. -/
@[always_inline, inline] protected def pure {α : Type} (a : α) : Eval α := fun σ => .done a σ

/-- Goes on with the answer and the store of a computation, unless it
failed. -/
@[always_inline, inline] protected def bind {α β : Type} (x : Eval α) (f : α → Eval β) : Eval β :=
  fun σ =>
    match x σ with
    | .done a τ => f a τ
    | .failed e τ => .failed e τ
    | .exhausted => .exhausted

instance : Monad Eval where
  pure := Eval.pure
  bind := Eval.bind

@[simp] theorem pure_apply {α : Type} (a : α) (σ : Store) : (pure a : Eval α) σ = .done a σ := rfl

theorem bind_done {α β : Type} {x : Eval α} {f : α → Eval β} {σ τ : Store} {a : α}
    (h : x σ = .done a τ) : (x >>= f) σ = f a τ := by
  show Eval.bind x f σ = f a τ
  simp [Eval.bind, h]

theorem bind_failed {α β : Type} {x : Eval α} {f : α → Eval β} {σ τ : Store} {e : Failure}
    (h : x σ = .failed e τ) : (x >>= f) σ = .failed e τ := by
  show Eval.bind x f σ = .failed e τ
  simp [Eval.bind, h]

theorem bind_exhausted {α β : Type} {x : Eval α} {f : α → Eval β} {σ : Store}
    (h : x σ = .exhausted) : (x >>= f) σ = .exhausted := by
  show Eval.bind x f σ = .exhausted
  simp [Eval.bind, h]

/-! ## Failing -/

/-- Fails with a fault that no call has seen yet. -/
def fail {α : Type} (fault : Fault) : Eval α := fun σ => .failed (.of fault) σ

/-- The computation that needs more fuel than it was given. -/
def outOfFuel {α : Type} : Eval α := fun _ => .exhausted

/-- A result that depends on no store. -/
def ofExcept {α : Type} : Except Fault α → Eval α
  | .ok a => pure a
  | .error fault => fail fault

/-- Runs a computation of a call: a failure that no inner call saw is
recorded as this call's. -/
@[inline] def within {α : Type} (callee : Value) (args : List Value) (span : Span) (x : Eval α) :
    Eval α :=
  fun σ =>
    match x σ with
    | .failed e τ => .failed (e.inCall callee args span) τ
    | outcome => outcome

theorem within_done {α : Type} {x : Eval α} {σ τ : Store} {a : α} (h : x σ = .done a τ)
    (callee : Value) (args : List Value) (span : Span) :
    (x.within callee args span) σ = .done a τ := by
  simp [within, h]

/-! ## Using the store -/

/-- The value of a name in a scope. -/
def lookup (name : String) (scope : Scope) : Eval Value := fun σ =>
  match σ.find? name scope with
  | some v => .done v σ
  | none => .failed (.of (.unresolved name)) σ

/-- Opens a scope inside another one, with these bindings. -/
def openInner (outer : Scope) (b : Bindings) : Eval Scope := fun σ =>
  let opened := σ.openInner outer b
  .done opened.1 opened.2

/-- Binds a name in one frame. -/
def define (f : FrameId) (name : String) (value : Value) : Eval Unit := fun σ =>
  .done () (σ.define f name value)

/-- Prints a line. -/
def print (line : String) : Eval Unit := fun σ => .done () (σ.print line)

/-- Builds a function with a number of its own. -/
def newClosure (params : List String) (body : Value) (scope : Scope) : Eval Value := fun σ =>
  .done (.closure σ.closures params body scope) { σ with closures := σ.closures + 1 }

end Eval

/-- A way to evaluate a form in a scope. The parts of the evaluator take
one as a parameter for the evaluations inside them. -/
abbrev Evaluator := Value → Scope → Eval Value

end LazyLisp
