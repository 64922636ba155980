import LazyLisp.Fault
import LazyLisp.Store

/-!
# Templates

A template, which programs call a macro, is a form with parameters. In the
place of a call of it stands its body with the argument forms filled in for
the parameters: all at once, in callees, arguments and vectors, and exactly
as they are, so that a parameter's name inside an argument means nothing.
Calls that come from the body get the span of the call they stand for, so
that a message points at the program and not at the template.

## Main results

* `substituteAll_eq_map` — a row is filled in place by place.
* `expand_of_length_eq` — the right number of forms always gives a form.
-/

namespace LazyLisp.Template

mutual

/-- Puts forms in the place of symbols and gives all calls of the body a
span. -/
def substitute (forms : Bindings) (span : Span) : Value → Value
  | .symbol name => (forms.find? name).getD (.symbol name)
  | .call callee args _ =>
      .call (substitute forms span callee) (substituteAll forms span args) span
  | .vector items => .vector (substituteAll forms span items)
  | v => v

/-- Fills in a row of forms. -/
def substituteAll (forms : Bindings) (span : Span) : List Value → List Value
  | [] => []
  | v :: rest => substitute forms span v :: substituteAll forms span rest

end

theorem substituteAll_eq_map (forms : Bindings) (span : Span) (items : List Value) :
    substituteAll forms span items = items.map (substitute forms span) := by
  induction items with
  | nil => rfl
  | cons v rest ih => simp [substituteAll, ih]

/-- The form that stands for a call of a template with these argument forms
and this span. -/
def expand (params : List String) (body : Value) (args : List Value) (span : Span) :
    Except Fault Value :=
  if params.length = args.length then
    .ok (substitute (.ofParams params args) span body)
  else .error (.templateArity params.length args.length)

/-- The right number of forms always gives a form. -/
theorem expand_of_length_eq {params : List String} {args : List Value}
    (h : params.length = args.length) (body : Value) (span : Span) :
    expand params body args span = .ok (substitute (.ofParams params args) span body) := by
  simp [expand, h]

end LazyLisp.Template
