import LazyLisp.Proofs.Application
import LazyLisp.Proofs.LoadedPrelude

/-!
# The derived forms

Loading the prelude leaves two templates in a global frame.  The call of one of
them stands for a definition whose value is built by a special form.  What is
filled in are forms of the program, as they are, so that names in them which the
templates use for their parameters mean what they mean elsewhere.

The prelude may be loaded in any store, and a scope in which the name has the value
that the prelude gave it may have been opened long after; other frames may have
changed by then.

The expansion has its calls at the place of the call that it stands for, while a
program that spells the definition has them where they were written.  Places show
in reports only: `agree_special_span` and `agree_defineOf` say that they do not show
in how an evaluation ends.

## Main results

* `find?_of_openGlobal` — what the names of the derived forms stand for after the
  prelude, in any store.
* `settles_template_call_iff` — a call of a template ends as its expansion does.
* `settles_derived_iff` — a derived form ends as the definition that it stands for.
-/

namespace LazyLisp

open Eval Evaluation

/-! ## Calls of templates -/

section Templates

variable {name : String} {params : List String} {body form : Value} {args : List Value}
  {span : Span} {scope : Scope} {σ : Store}

/-- A call of a template ends as its expansion does. -/
theorem settles_template_call_iff (hp : primitive? (.symbol name) = none)
    (hfind : σ.find? name scope = some (.template params body))
    (hform : Template.expand params body args span = .ok form) {o : Outcome Fault Value} :
    Settles (fun n => evaluate n (.call (.symbol name) args span) scope) σ o ↔
      Settles (fun n => evaluate n form scope) σ o := by
  have hone : evaluate 1 (.call (.symbol name) args span) scope σ = .exhausted := by
    rw [evaluate_eq_bind]
    show (call 0 (evaluate 0) scope (.symbol name) args span >>= resume (evaluate 0)) σ = _
    rw [call, hp]
    rfl
  have hlater : Settles (fun n => evaluate n form scope) σ o ↔
      Settles (fun n => evaluate (n + 1) form scope) σ o := settles_succ_iff rfl
  rw [settles_succ_iff rfl, settles_succ_iff hone, hlater]
  simp only [Settles, evaluate_template_call hp hfind hform]

end Templates

/-! ## Places of calls -/

/-- The place of a special form does not show in how its evaluation ends. -/
theorem agree_special_span (form : SpecialForm) (args : List Value) (span span' : Span)
    (fuel : Nat) (scope : Scope) :
    Agree (evaluate fuel (.call (.symbol form.name) args span) scope)
      (evaluate fuel (.call (.symbol form.name) args span') scope) := by
  cases fuel with
  | zero => exact .refl _
  | succ n =>
      refine (agree_special form args span n scope).trans ?_
      exact (agree_special form args span' n scope).symm

/-- A definition ends in the same way if the form of its value does, wherever that
is evaluated. -/
theorem agree_defineOf {ev : Evaluator} {scope : Scope} {form form' : Value}
    (h : ∀ inner, Agree (ev form inner) (ev form' inner)) (target : Value) :
    Agree (SpecialForm.defineOf ev scope [target, form])
      (SpecialForm.defineOf ev scope [target, form']) := by
  cases target with
  | symbol name =>
      exact (Agree.refl _).bind fun inner => (h inner).bind fun v => .refl _
  | _ => exact .refl _

namespace Prelude

/-- What the names of the derived forms stand for after the prelude. -/
theorem find?_of_openGlobal {fuel : Nat} {σ τ : Store} {global : Scope}
    (h : openGlobal fuel true σ = .done global τ) (d : Derived) :
    τ.find? d.name global = some (.template d.params d.body) := by
  obtain ⟨-, rfl, rfl⟩ := openGlobal_eq_done_iff.mp h
  exact find?_after σ d

/-! ## What derived forms mean -/

/-- The places of the two calls of a definition do not show in how it ends. -/
theorem settles_meaning_span_iff (d : Derived) (f ps b : Value) (outer inner outer' inner' : Span)
    {scope : Scope} {σ : Store} {o : Outcome Fault Value} :
    Settles (fun n => evaluate n (d.meaning f ps b outer inner) scope) σ o ↔
      Settles (fun n => evaluate n (d.meaning f ps b outer' inner') scope) σ o := by
  refine (settles_special_iff .define).trans (Iff.trans ?_ (settles_special_iff .define).symm)
  refine Settles.congr fun n => agree_defineOf (fun opened => ?_) f
  exact agree_special_span d.builder [ps, b] inner inner' n opened

/-- A derived form ends as the definition that it stands for. -/
theorem settles_derived_iff {d : Derived} {scope : Scope} {σ : Store}
    (hfind : σ.find? d.name scope = some (.template d.params d.body)) (f ps b : Value)
    (span outer inner : Span) {o : Outcome Fault Value} :
    Settles (fun n => evaluate n (d.form f ps b span) scope) σ o ↔
      Settles (fun n => evaluate n (d.meaning f ps b outer inner) scope) σ o :=
  (settles_template_call_iff d.primitive?_name hfind (d.expand_body f ps b span)).trans
    (settles_meaning_span_iff d f ps b span span outer inner)

/-- After the prelude has been loaded, in whatever store, a derived form means what
it abbreviates: wherever its name still has the value that the prelude gave it, it
ends if the definition does that it stands for, with the same value or the same
fault, and with the same bindings, functions and printed text.  This holds for any
three forms, and wherever the calls were written. -/
theorem derived_forms_agree {fuel : Nat} {σ₀ τ₀ : Store} {global : Scope}
    (hload : openGlobal fuel true σ₀ = .done global τ₀) (d : Derived) :
    (∃ params body, τ₀.find? d.name global = some (.template params body)) ∧
    ∀ (scope : Scope) (σ : Store), σ.find? d.name scope = τ₀.find? d.name global →
      ∀ (f ps b : Value) (span outer inner : Span) (o : Outcome Fault Value),
        Settles (fun n => evaluate n (.call (.symbol d.name) [f, ps, b] span) scope) σ o ↔
          Settles (fun n => evaluate n (.call (.symbol "def")
            [f, .call (.symbol d.builder.name) [ps, b] inner] outer) scope) σ o := by
  have hprelude := find?_of_openGlobal hload d
  refine ⟨⟨_, _, hprelude⟩, fun scope σ hfind f ps b span outer inner o => ?_⟩
  exact settles_derived_iff (hfind.trans hprelude) f ps b span outer inner

/-- A template whose name, parameters and body are the names of the parameters of
`defmacro`, where one of them names the parameter list, and a function whose
parameter list is none. -/
theorem derived_forms_agree_captured :
    let σ : Store := loaded.addFrame [("a", .vector [.symbol "x"])]
    let s : Scope := .inner 5 (.global 0)
    openGlobal 4 true .empty = .done (.global 0) loaded ∧
      σ.find? "defmacro" s = loaded.find? "defmacro" (.global 0) ∧
      σ.find? "defn" s = loaded.find? "defn" (.global 0) ∧
      Settles (fun n => evaluate n
          (.call (.symbol "defmacro") [.symbol "e", .symbol "a", .symbol "n"] ⟨0, 16⟩) s) σ
        (.done (.symbol "e") ((σ.addFrame []).define 0 "e" (.template ["x"] (.symbol "n")))) ∧
      Settles (fun n => evaluate n
          (.call (.symbol "defn") [.symbol "nn", .integer 5, .symbol "ee"] ⟨0, 12⟩) s) σ
        (.failed (.paramsNotVector .integer) (σ.addFrame [])) := by
  intro σ s
  have hload : openGlobal 4 true .empty = .done (.global 0) loaded :=
    openGlobal_empty_eq_done_iff.mpr ⟨Nat.le_refl 4, rfl, rfl⟩
  have htemplate : σ.find? "defmacro" s = loaded.find? "defmacro" (.global 0) := rfl
  have hfunction : σ.find? "defn" s = loaded.find? "defn" (.global 0) := rfl
  have hdefined := (derived_forms_agree hload .template).2 s σ htemplate (.symbol "e")
    (.symbol "a") (.symbol "n") ⟨0, 16⟩ ⟨0, 20⟩ ⟨7, 19⟩
    (.done (.symbol "e") ((σ.addFrame []).define 0 "e" (.template ["x"] (.symbol "n"))))
  have hrefused := (derived_forms_agree hload .function).2 s σ hfunction (.symbol "nn")
    (.integer 5) (.symbol "ee") ⟨0, 12⟩ ⟨0, 16⟩ ⟨7, 15⟩
    (.failed (.paramsNotVector .integer) (σ.addFrame []))
  exact ⟨hload, htemplate, hfunction, hdefined.mpr (settles_of_done 4 rfl),
    hrefused.mpr ⟨nofun, 4, rfl⟩⟩

end Prelude

end LazyLisp
