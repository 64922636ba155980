import LazyLisp.Prelude
import LazyLisp.Proofs.Direct.Refinement
import LazyLisp.Proofs.Parts

/-!
# The store that the prelude leaves

The prelude is a fixed program.  In whatever store it is loaded, it opens a
global frame, binds two templates there, and opens four frames inside that stay
empty.  It neither builds a function nor prints.  Its run is computed as far as
the call of `defmacro` that binds `defn`; there the name is looked up in a store
that is not known, and from the expansion on the run is computed again.

## Main results

* `evaluate_template_call` — a call of a template is its expansion.
* `openGlobal_with` — to load the prelude is to evaluate its form.
* `openGlobal_eq_done_iff` — with four units of fuel or more the prelude is
  loaded, in any store, and there is no other way for it to end.
* `find?_after` — the two names stand for their templates.
* `holds_loaded` — all that is bound in an empty store are templates with bodies
  that were written.
-/

namespace LazyLisp

open Eval Evaluation

/-- A call of a template is its expansion, with less fuel. -/
theorem evaluate_template_call {name : String} {params : List String} {body form : Value}
    {args : List Value} {span : Span} {scope : Scope} {σ : Store}
    (hp : primitive? (.symbol name) = none)
    (hfind : σ.find? name scope = some (.template params body))
    (hform : Template.expand params body args span = .ok form) (n : Nat) :
    evaluate (n + 2) (.call (.symbol name) args span) scope σ =
      evaluate (n + 1) form scope σ := by
  have hlookup : evaluate (n + 1) (.symbol name) scope σ = .done (.template params body) σ := by
    rw [evaluate_eq_bind]
    show ((Eval.lookup name scope >>= fun v => pure (.value v)) >>= resume (evaluate n)) σ = _
    have hfound : Eval.lookup name scope σ = .done (.template params body) σ := by
      rw [Eval.lookup, hfind]
    rw [bind_assoc, bind_done hfound]
    rfl
  have hcallee : (calleeValue (evaluate (n + 1)) scope (.symbol name)).within (.symbol name) args
      span σ = .done (.template params body) σ := within_done hlookup _ _ _
  rw [evaluate_eq_bind]
  show (call (n + 1) (evaluate (n + 1)) scope (.symbol name) args span >>=
    resume (evaluate (n + 1))) σ = _
  rw [call, hp]
  simp only [bind_assoc]
  rw [bind_done hcallee]
  simp only [hform]
  rfl

namespace Prelude

/-! ## The program -/

/-- The form `(def name (keyword params body))`. -/
def definition (name keyword params body : String) (outer inner : Span) : Value :=
  .call (.symbol "def")
    [.symbol name, .call (.symbol keyword) [.symbol params, .symbol body] inner] outer

/-- The body of `defmacro`. -/
def templateDefinition : Value := definition "n" "macro" "a" "e" ⟨36, 55⟩ ⟨43, 54⟩

/-- The body of `defn`. -/
def functionDefinition : Value := definition "nn" "fn" "aa" "ee" ⟨86, 105⟩ ⟨94, 104⟩

/-- The prelude as it is read. -/
def form : Value :=
  .call (.symbol "do")
    [.call (.symbol "def")
      [.symbol "defmacro",
        .call (.symbol "macro")
          [.vector [.symbol "n", .symbol "a", .symbol "e"], templateDefinition] ⟨21, 56⟩] ⟨7, 57⟩,
      .call (.symbol "defmacro")
        [.symbol "defn", .vector [.symbol "nn", .symbol "aa", .symbol "ee"],
          functionDefinition] ⟨60, 106⟩] ⟨1, 107⟩

private theorem read_source : Reader.read source = .ok form := by
  with_unfolding_all rfl

private theorem run_source (fuel : Nat) (scope : Scope) (σ : Store) :
    Program.run fuel source scope σ =
      Program.outcome (evaluate fuel form scope σ) := by
  rw [Program.run, read_source]

/-- A global scope with the prelude is one in which its form has been evaluated. -/
theorem openGlobal_with (fuel : Nat) (σ : Store) :
    openGlobal fuel true σ =
      match evaluate fuel form (.global σ.frames.size) (σ.addFrame []) with
      | .done _ τ => .done (.global σ.frames.size) τ
      | .failed e τ => .failed (.failed e) τ
      | .exhausted => .exhausted := by
  have hopen : σ.openGlobal = (.global σ.frames.size, σ.addFrame []) := rfl
  rw [openGlobal, if_pos rfl, hopen, run_source]
  cases evaluate fuel form (.global σ.frames.size) (σ.addFrame []) <;> rfl

/-! ## The derived forms -/

/-- The two forms that the prelude adds. -/
inductive Derived where
  /-- Defines a function. -/
  | function
  /-- Defines a template. -/
  | template

namespace Derived

/-- The name that is bound. -/
def name : Derived → String
  | .function => "defn"
  | .template => "defmacro"

/-- The special form that builds the value. -/
def builder : Derived → SpecialForm
  | .function => .function
  | .template => .template

/-- The names of the parameters of its template. -/
def params : Derived → List String
  | .function => ["nn", "aa", "ee"]
  | .template => ["n", "a", "e"]

/-- The body of its template. -/
def body : Derived → Value
  | .function => functionDefinition
  | .template => templateDefinition

/-- The derived form with a name, parameters and a body. -/
def form (d : Derived) (f ps b : Value) (span : Span) : Value :=
  .call (.symbol d.name) [f, ps, b] span

/-- The definition that it stands for. -/
def meaning (d : Derived) (f ps b : Value) (outer inner : Span) : Value :=
  .call (.symbol SpecialForm.define.name)
    [f, .call (.symbol d.builder.name) [ps, b] inner] outer

/-- The names of the derived forms are no primitives. -/
theorem primitive?_name (d : Derived) : primitive? (.symbol d.name) = none := by
  cases d <;> rfl

/-- What the template makes of any three forms. -/
theorem expand_body (d : Derived) (f ps b : Value) (span : Span) :
    Template.expand d.params d.body [f, ps, b] span = .ok (d.meaning f ps b span span) := by
  cases d <;> with_unfolding_all rfl

end Derived

/-! ## Its run -/

/-- The store after the first definition of the prelude, in a new global frame of
this one. -/
def afterFirst (σ : Store) : Store :=
  (((σ.addFrame []).addFrame []).addFrame []).define σ.frames.size Derived.template.name
    (.template Derived.template.params Derived.template.body)

/-- The store after the prelude. -/
def after (σ : Store) : Store :=
  (((afterFirst σ).addFrame []).addFrame []).define σ.frames.size Derived.function.name
    (.template Derived.function.params Derived.function.body)

theorem size_afterFirst (σ : Store) : (afterFirst σ).frames.size = σ.frames.size + 3 := by
  rw [afterFirst, Store.size_define, Store.size_addFrame, Store.size_addFrame, Store.size_addFrame]

/-- The second definition of the program finds what the first one bound. -/
theorem find?_afterFirst (σ : Store) :
    (afterFirst σ).find? Derived.template.name (.global σ.frames.size) =
      some (.template Derived.template.params Derived.template.body) := by
  have hglobal : σ.frames.size < (((σ.addFrame []).addFrame []).addFrame []).frames.size := by
    rw [Store.size_addFrame, Store.size_addFrame, Store.size_addFrame]
    omega
  rw [afterFirst, Store.find?_global_define hglobal, if_pos rfl]

/-- Either name stands for its template in the global frame. -/
theorem find?_after (σ : Store) (d : Derived) :
    (after σ).find? d.name (.global σ.frames.size) = some (.template d.params d.body) := by
  have hfirst : σ.frames.size < (afterFirst σ).frames.size := by
    rw [size_afterFirst]
    omega
  have hsecond : σ.frames.size < ((afterFirst σ).addFrame []).frames.size := by
    rw [Store.size_addFrame]
    omega
  have hthird : σ.frames.size < (((afterFirst σ).addFrame []).addFrame []).frames.size := by
    rw [Store.size_addFrame]
    omega
  rw [after, Store.find?_global_define hthird]
  cases d with
  | function => rfl
  | template =>
      rw [if_neg (by decide), Store.find?_global_addFrame hsecond,
        Store.find?_global_addFrame hfirst]
      exact find?_afterFirst σ

/-- The program calls `defmacro` in order to bind `defn`; it ends as the definition
does that this call stands for. -/
theorem evaluate_form_eq (σ : Store) (n : Nat) :
    evaluate (n + 3) form (.global σ.frames.size) (σ.addFrame []) =
      evaluate (n + 1)
        (Derived.template.meaning (.symbol Derived.function.name)
          (.vector [.symbol "nn", .symbol "aa", .symbol "ee"]) functionDefinition ⟨60, 106⟩
          ⟨60, 106⟩)
        (.inner (afterFirst σ).frames.size (.global σ.frames.size))
        ((afterFirst σ).addFrame []) := by
  have hfirst : σ.frames.size < (afterFirst σ).frames.size := by
    rw [size_afterFirst]
    omega
  have hfind : ((afterFirst σ).addFrame []).find? Derived.template.name
      (.inner (afterFirst σ).frames.size (.global σ.frames.size)) =
        some (.template Derived.template.params Derived.template.body) := by
    rw [Store.find?_inner, Store.bindings_addFrame, if_pos rfl, Bindings.find?, Option.none_or,
      Store.find?_global_addFrame hfirst, find?_afterFirst]
  exact evaluate_template_call Derived.template.primitive?_name hfind
    (Derived.template.expand_body _ _ _ _) n

/-- With enough fuel the program ends with the name that it bound last. -/
private theorem evaluate_form (σ : Store) (n : Nat) :
    evaluate (n + 4) form (.global σ.frames.size) (σ.addFrame []) =
      .done (.symbol Derived.function.name) (after σ) :=
  evaluate_form_eq σ (n + 1)

private theorem evaluate_form_exhausted (σ : Store) {fuel : Nat} (h : fuel < 4) :
    evaluate fuel form (.global σ.frames.size) (σ.addFrame []) = .exhausted := by
  match fuel with
  | 0 | 1 | 2 => rfl
  | 3 => exact evaluate_form_eq σ 0
  | more + 4 => omega

/-- The prelude is loaded whenever it has fuel enough. -/
theorem openGlobal_eq_done_iff {fuel : Nat} {scope : Scope} {σ τ : Store} :
    openGlobal fuel true σ = .done scope τ ↔
      4 ≤ fuel ∧ scope = .global σ.frames.size ∧ τ = after σ := by
  rw [openGlobal_with]
  by_cases henough : 4 ≤ fuel
  · obtain ⟨more, rfl⟩ : ∃ more, fuel = more + 4 := ⟨fuel - 4, by omega⟩
    rw [evaluate_form]
    constructor
    · rintro ⟨⟩
      exact ⟨henough, rfl, rfl⟩
    · rintro ⟨-, rfl, rfl⟩
      rfl
  · rw [evaluate_form_exhausted σ (by omega)]
    constructor
    · rintro ⟨⟩
    · rintro ⟨hfuel, -, -⟩
      exact absurd hfuel henough

/-! ## The empty store -/

/-- The prelude in the empty store: the global frame with two templates, and four
empty frames. -/
def loaded : Store :=
  let opened := (((Store.empty.addFrame []).addFrame []).addFrame []).define 0 "defmacro"
    (.template ["n", "a", "e"] templateDefinition)
  ((opened.addFrame []).addFrame []).define 0 "defn"
    (.template ["nn", "aa", "ee"] functionDefinition)

/-- In the empty store the prelude leaves this one. -/
theorem openGlobal_empty_eq_done_iff {fuel : Nat} {scope : Scope} {σ : Store} :
    openGlobal fuel true .empty = .done scope σ ↔
      4 ≤ fuel ∧ scope = .global 0 ∧ σ = loaded :=
  openGlobal_eq_done_iff

private theorem written_definition (name keyword params body : String) (outer inner : Span) :
    (definition name keyword params body outer inner).Written := by
  have hinner : (Value.call (.symbol keyword) [.symbol params, .symbol body] inner).Written :=
    .call (Value.written_symbol keyword) (by simp [Value.written_symbol]) inner
  exact .call (Value.written_symbol "def") (by simp [Value.written_symbol, hinner]) outer

/-- All that the prelude binds are templates with bodies that were written. -/
theorem holds_loaded {P : Value → Prop}
    (h : ∀ params body, body.Written → P (.template params body)) : loaded.All P := by
  have hempty : ∀ name v, (name, v) ∈ ([] : Bindings) → P v := nofun
  have htemplate : P (.template ["n", "a", "e"] templateDefinition) :=
    h _ _ (written_definition _ _ _ _ _ _)
  have hfunction : P (.template ["nn", "aa", "ee"] functionDefinition) :=
    h _ _ (written_definition _ _ _ _ _ _)
  have hopened := ((Store.All.empty.addFrame hempty).addFrame hempty).addFrame hempty
  have hfirst := hopened.define htemplate 0 "defmacro"
  exact ((hfirst.addFrame hempty).addFrame hempty).define hfunction 0 "defn"

end Prelude

end LazyLisp
