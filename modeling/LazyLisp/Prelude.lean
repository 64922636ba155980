import LazyLisp.Program

/-!
# The prelude

Two derived forms are defined in the language itself, by a program that is
run before any other: `(defmacro f ps b)` for `(def f (macro ps b))` and
`(defn f ps b)` for `(def f (fn ps b))`. Their templates spell their
parameters in ways of their own, since a template's parameters are filled
in wherever their names stand.
-/

namespace LazyLisp.Prelude

/-- The derived forms, in the language itself. -/
def source : String := "
(do
  (def defmacro (macro [n a e] (def n (macro a e))))
  (defmacro defn [nn aa ee] (def nn (fn aa ee))))
"

/-- A new global scope in a store, with or without the prelude's
definitions. -/
def openGlobal (fuel : Nat) (withPrelude : Bool) (σ : Store) : Outcome Program.Error Scope :=
  let opened := σ.openGlobal
  if withPrelude then
    match Program.run fuel source opened.1 opened.2 with
    | .done _ τ => .done opened.1 τ
    | .failed e τ => .failed e τ
    | .exhausted => .exhausted
  else .done opened.1 opened.2

end LazyLisp.Prelude
