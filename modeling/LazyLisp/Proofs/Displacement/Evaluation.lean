import LazyLisp.Proofs.Displacement.Operators

/-!
# Displaced runs

A displaced form, evaluated in a scope that is moved over a store that is
linked, comes to a displaced answer.  The special forms, the calls and the
single steps do so as long as the evaluations inside them do, and the fuel is
the measure by which this closes.

## Main results

* `Tracks.special` — the special forms.
* `Tracks.step` — every step.
* `evaluate_follows` — evaluation, whatever the fuel.
-/

namespace LazyLisp

open Value (Displaced)
open Evaluation (primitive? evaluate)

/-- What a step leads to in two runs. -/
inductive Next.Displaced (d : Displacement) : Next → Next → Prop where
  | value {v v' : Value} (h : v.Displaced d v') : Displaced d (.value v) (.value v')
  | form {form form' : Value} (h : form.Displaced d form') (scope : Scope) :
      Displaced d (.form form scope) (.form form' (d.scope scope))

namespace Displacement.Tracks

variable {d : Displacement} {ev : Evaluator} {args args' : List Value}

/-- Opening a scope without bindings and going on in it. -/
theorem bind_openInner {β γ : Type} {R : β → γ → Prop} {k : Scope → Eval β} {l : Scope → Eval γ}
    (scope : Scope) (h : ∀ inner, d.Tracks R (k inner) (l (d.scope inner))) :
    d.Tracks R (Eval.openInner scope [] >>= k) (Eval.openInner (d.scope scope) [] >>= l) := by
  refine (openInner scope .nil).bind fun inner _ heq => ?_
  subst heq
  exact h inner

/-! ## Special forms -/

/-- A value in the place of a step. -/
theorem value {x y : Eval Value} (h : d.Tracks (Displaced d) x y) :
    d.Tracks (Next.Displaced d) (Next.value <$> x) (Next.value <$> y) :=
  h.map fun _ _ hv => .value hv

section Forms

variable (hev : d.Follows ev) (scope : Scope) (hargs : List.Forall₂ (Displaced d) args args')

include hev hargs

private theorem conditionalOf :
    d.Tracks (Next.Displaced d) (SpecialForm.conditionalOf ev scope args)
      (SpecialForm.conditionalOf ev (d.scope scope) args') := by
  match hargs with
  | .cons hcondition (.cons hpositive (.cons hnegative .nil)) =>
      refine (hev hcondition scope).bind fun answer answer' hanswer => ?_
      cases hanswer with
      | boolean b =>
          cases b with
          | true => exact .pure (.form hpositive scope)
          | false => exact .pure (.form hnegative scope)
      | _ => exact .fail _ _
  | .nil | .cons _ .nil | .cons _ (.cons _ .nil) | .cons _ (.cons _ (.cons _ (.cons _ _))) =>
      exact .fail _ _

private theorem defineOf :
    d.Tracks (Displaced d) (SpecialForm.defineOf ev scope args)
      (SpecialForm.defineOf ev (d.scope scope) args') := by
  match hargs with
  | .cons htarget (.cons hform .nil) =>
      cases htarget with
      | symbol name =>
          refine bind_openInner scope fun inner => (hev hform inner).bind fun v v' hv => ?_
          rw [rootFrame_scope]
          exact (define scope.rootFrame name hv).bind fun _ _ _ => .pure (.symbol name)
      | _ => exact .fail _ _
  | .nil => exact .fail _ _
  | .cons _ .nil | .cons _ (.cons _ (.cons _ _)) =>
      rw [SpecialForm.defineOf_of_length_ne (by simp), SpecialForm.defineOf_of_length_ne (by simp)]
      exact .fail _ _

private theorem sequenceOf :
    d.Tracks (Next.Displaced d) (SpecialForm.sequenceOf ev scope args)
      (SpecialForm.sequenceOf ev (d.scope scope) args') := by
  induction hargs with
  | nil => exact .pure (.value .nil)
  | cons hform hrest ih =>
      cases hrest with
      | nil => exact bind_openInner scope fun inner => .pure (.form hform inner)
      | cons _ _ =>
          exact bind_openInner scope fun inner => (hev hform inner).bind fun _ _ _ => ih

omit hargs in
/-- A displaced parameter list has the same names. -/
theorem paramsOf {params params' : Value} (hparams : Displaced d params params') :
    d.Tracks Eq (SpecialForm.paramsOf ev scope params)
      (SpecialForm.paramsOf ev (d.scope scope) params') := by
  -- a symbol is evaluated before its value is read, any other form is read as it stands
  have hread {v v' : Value} (hv : Displaced d v v') :
      d.Tracks Eq (Eval.ofExcept (readParams v)) (Eval.ofExcept (readParams v')) := by
    rw [readParams_congr hv]
    exact .ofExcept (.refl _)
  have hwritten := hread hparams
  cases hparams with
  | symbol name => exact (hev (.symbol name) scope).bind fun _ _ hv => hread hv
  | _ => exact hwritten

private theorem functionOf :
    d.Tracks (Displaced d) (SpecialForm.functionOf ev scope args)
      (SpecialForm.functionOf ev (d.scope scope) args') := by
  match hargs with
  | .cons hparams (.cons hbody .nil) =>
      refine (paramsOf hev scope hparams).bind fun names _ heq => ?_
      subst heq
      exact newClosure names hbody scope
  | .nil | .cons _ .nil | .cons _ (.cons _ (.cons _ _)) => exact .fail _ _

private theorem templateOf :
    d.Tracks (Displaced d) (SpecialForm.templateOf ev scope args)
      (SpecialForm.templateOf ev (d.scope scope) args') := by
  match hargs with
  | .cons hparams (.cons hbody .nil) =>
      refine (paramsOf hev scope hparams).bind fun names _ heq => ?_
      subst heq
      exact .pure (.template hbody)
  | .nil | .cons _ .nil | .cons _ (.cons _ (.cons _ _)) => exact .fail _ _

private theorem lazyPairOf :
    d.Tracks (Displaced d) (SpecialForm.lazyPairOf ev scope args)
      (SpecialForm.lazyPairOf ev (d.scope scope) args') := by
  match hargs with
  | .cons hform .nil => exact (hev hform scope).bind fun _ _ hhead => .pure (.lastCell hhead)
  | .cons hform (.cons hrest .nil) =>
      refine (hev hform scope).bind fun head head' hhead => ?_
      rw [hrest.isPending_eq]
      split
      · exact .pure (.lazyCell hhead hrest)
      · exact .fail _ _
  | .nil | .cons _ (.cons _ (.cons _ _)) => exact .fail _ _

omit hargs in
private theorem appliedTo {form form' : Value} (hform : Displaced d form form') :
    d.Tracks (Displaced d) (SpecialForm.appliedTo ev scope form)
      (SpecialForm.appliedTo ev (d.scope scope) form') := by
  unfold SpecialForm.appliedTo
  rw [hform.isPending_eq]
  split
  · exact bind_openInner scope fun inner => hev hform inner
  · exact .pure hform

omit hev hargs in
private theorem applyCallee {values values' : List Value}
    (hvalues : List.Forall₂ (Displaced d) values values') {head head' : Value}
    (hhead : Displaced d head head') :
    d.Tracks (Next.Displaced d) (SpecialForm.applyCallee values head)
      (SpecialForm.applyCallee values' head') := by
  cases hhead with
  | closure hbody =>
      refine (bindParams _ _ hvalues).bind fun inner _ heq => ?_
      subst heq
      exact .pure (.form hbody inner)
  | _ => exact .fail _ _

omit hargs in
private theorem applyValues {form form' : Value} (hform : Displaced d form form')
    {values values' : List Value} (hvalues : List.Forall₂ (Displaced d) values values') :
    d.Tracks (Next.Displaced d) (SpecialForm.applyValues ev scope form values)
      (SpecialForm.applyValues ev (d.scope scope) form' values') := by
  have onForm {form form' : Value} (hform : Displaced d form form') :
      d.Tracks (Next.Displaced d) (ev form scope >>= SpecialForm.applyCallee values)
        (ev form' (d.scope scope) >>= SpecialForm.applyCallee values') :=
    (hev hform scope).bind fun _ _ hhead => applyCallee hvalues hhead
  have hvalue := applyCallee hvalues hform
  cases hform with
  | symbol name =>
      simp only [SpecialForm.applyValues]
      cases Primitive.ofName? name with
      | none => exact onForm (.symbol name)
      | some p =>
          cases p with
          | operator op => exact (run hev scope hvalues op).bind fun _ _ hv => .pure (.value hv)
          | special form => exact .fail _ _
  | call hcallee hargs => exact onForm (.call hcallee hargs)
  | _ => exact hvalue

private theorem applyOf (fuel : Nat) :
    d.Tracks (Next.Displaced d) (SpecialForm.applyOf fuel ev scope args)
      (SpecialForm.applyOf fuel ev (d.scope scope) args') := by
  match hargs with
  | .cons hform (.cons harguments .nil) =>
      refine (appliedTo hev scope harguments).bind fun sequence sequence' hsequence => ?_
      rw [hsequence.isSequence_eq]
      split
      · exact (takeAll hev fuel (.before hsequence) .nil).bind fun _ _ hvalues =>
          applyValues hev scope hform hvalues
      · exact .fail _ _
  | .nil | .cons _ .nil | .cons _ (.cons _ (.cons _ _)) => exact .fail _ _

/-- Every special form. -/
theorem special (fuel : Nat) (form : SpecialForm) :
    d.Tracks (Next.Displaced d) (form.run fuel ev scope args)
      (form.run fuel ev (d.scope scope) args') := by
  cases form with
  | lazyPair => exact value (lazyPairOf hev scope hargs)
  | conditional => exact conditionalOf hev scope hargs
  | define => exact value (defineOf hev scope hargs)
  | sequence => exact sequenceOf hev scope hargs
  | function => exact value (functionOf hev scope hargs)
  | template => exact value (templateOf hev scope hargs)
  | apply => exact applyOf hev scope hargs fuel

/-! ## Calls and steps -/

private theorem arguments :
    d.Tracks (List.Forall₂ (Displaced d)) (Evaluation.arguments ev scope args)
      (Evaluation.arguments ev (d.scope scope) args') := by
  induction hargs with
  | nil => exact .pure .nil
  | cons hform _ ih =>
      exact (hev hform scope).bind fun _ _ hv => ih.bind fun _ _ hvs => .pure (.cons hv hvs)

omit hargs in
private theorem calleeValue {callee callee' : Value} (hcallee : Displaced d callee callee') :
    d.Tracks (Displaced d) (Evaluation.calleeValue ev scope callee)
      (Evaluation.calleeValue ev (d.scope scope) callee') := by
  have hform := hev hcallee scope
  cases hcallee with
  | closure hbody => exact .pure (.closure hbody)
  | template hbody => exact .pure (.template hbody)
  | _ => exact hform

private theorem call (fuel : Nat) {callee callee' : Value} (hcallee : Displaced d callee callee')
    (span : Span) :
    d.Tracks (Next.Displaced d) (Evaluation.call fuel ev scope callee args span)
      (Evaluation.call fuel ev (d.scope scope) callee' args' span) := by
  unfold Evaluation.call
  rw [primitive?_congr hcallee]
  split
  · refine ((arguments hev scope hargs).within).bind fun values values' hvalues => ?_
    exact ((run hev scope hvalues _).within).bind fun _ _ hv => .pure (.value hv)
  · exact (special hev scope hargs fuel _).within
  · refine ((calleeValue hev scope hcallee).within).bind fun head head' hhead => ?_
    cases hhead with
    | closure hbody =>
        refine ((arguments hev scope hargs).within).bind fun values values' hvalues => ?_
        refine ((bindParams _ _ hvalues).within).bind fun inner _ heq => ?_
        subst heq
        exact .pure (.form hbody inner)
    | template hbody =>
        exact ((ofExcept (expand_agree hbody hargs _ span)).within).bind fun _ _ hform =>
          .pure (.form hform scope)
    | _ => exact (fail _ _).within

omit hargs in
/-- One step of displaced code leads to displaced code or to a displaced value. -/
theorem step (fuel : Nat) {form form' : Value} (hform : Displaced d form form') :
    d.Tracks (Next.Displaced d) (Evaluation.step fuel ev scope form)
      (Evaluation.step fuel ev (d.scope scope) form') := by
  have hself : d.Tracks (Next.Displaced d) (Pure.pure (.value form)) (Pure.pure (.value form')) :=
    .pure (.value hform)
  cases hform with
  | symbol name => exact (lookup name scope).bind fun _ _ hv => .pure (.value hv)
  | call hcallee hargs => exact call hev scope hargs fuel hcallee _
  | _ => exact hself

end Forms

end Displacement.Tracks

/-- Evaluation goes the same way in displaced stores, whatever the fuel. -/
theorem Displacement.evaluate_follows (d : Displacement) (fuel : Nat) :
    d.Follows (evaluate fuel) := by
  induction fuel with
  | zero => exact fun _ _ => Tracks.outOfFuel
  | succ fuel ih =>
      intro form form' hform scope
      rw [Evaluation.evaluate_eq_bind, Evaluation.evaluate_eq_bind]
      refine (Tracks.step ih scope fuel hform).bind fun next next' hnext => ?_
      cases hnext with
      | value hv => exact .pure hv
      | form hform inner => exact ih hform inner

end LazyLisp
