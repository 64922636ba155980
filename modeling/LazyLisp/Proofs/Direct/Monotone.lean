import LazyLisp.Evaluation.Direct
import LazyLisp.Proofs.Direct.Refinement

/-!
# More fuel, same answer

Every part of the evaluator uses the evaluations inside it only by running
them, so it refines itself when they are refined.  There is one lemma for
each part that takes an evaluator; parts that go through a list or along a
sequence are by induction on it.  Closing the recursion gives that an
evaluation that has ended with some fuel ends in the same way with more.

## Main results

* `Evaluator.Refines.run` — the operators.
* `Evaluator.Refines.form` — the value of a form, by plain recursion.
* `Direct.evaluate_refines` — more fuel refines an evaluation.
-/

namespace LazyLisp

open Eval Evaluation

/-- Every evaluation by the first evaluator is refined by the second one. -/
def Evaluator.Refines (ev ev' : Evaluator) : Prop :=
  ∀ form scope, Eval.Refines (ev form scope) (ev' form scope)

namespace Evaluator.Refines

variable {ev ev' : Evaluator} (hev : ev.Refines ev') {scope : Scope}

include hev

/-! ## Walking a sequence -/

/-- Forcing a rest is refined by a finer evaluator. -/
theorem forceRest (rest : Value) (scope : Scope) :
    Eval.Refines (forceRest ev rest scope) (LazyLisp.forceRest ev' rest scope) :=
  (hev rest scope).bind fun _ => .refl _

/-- A request for the next element is refined by a finer evaluator. -/
theorem next (c : Cursor) : Eval.Refines (Cursor.next ev c) (Cursor.next ev' c) := by
  cases c with
  | before v => exact .refl _
  | pending rest scope => exact (hev.forceRest rest scope).bind fun _ => .refl _

private theorem takeFrom (count : Nat) (c : Cursor) (taken : List Value) :
    Eval.Refines (Cursor.takeFrom ev count c taken) (Cursor.takeFrom ev' count c taken) := by
  induction count generalizing c taken with
  | zero => exact .refl _
  | succ count ih =>
      rw [Cursor.takeFrom_succ, Cursor.takeFrom_succ]
      refine (hev.next c).bind fun r => ?_
      cases r with
      | none => exact .refl _
      | some found => exact ih found.2 (found.1 :: taken)

/-- The fuel of a walk may grow as well. -/
theorem takeAll {fuel fuel' : Nat} (hle : fuel ≤ fuel') (c : Cursor) (taken : List Value) :
    Eval.Refines (Cursor.takeAll ev fuel c taken) (Cursor.takeAll ev' fuel' c taken) := by
  induction fuel generalizing fuel' c taken with
  | zero => exact .outOfFuel _
  | succ fuel ih =>
      obtain ⟨more, rfl⟩ : ∃ more, fuel' = more + 1 := ⟨fuel' - 1, by omega⟩
      rw [Cursor.takeAll_succ, Cursor.takeAll_succ]
      refine (hev.next c).bind fun r => ?_
      cases r with
      | none => exact .refl _
      | some found => exact ih (Nat.le_of_succ_le_succ hle) found.2 (found.1 :: taken)

/-! ## Operators -/

/-- The call of a function is refined by a finer evaluator. -/
theorem callClosure (params : List String) (body : Value) (captured : Scope)
    (args : List Value) :
    Eval.Refines (callClosure ev params body captured args)
      (LazyLisp.callClosure ev' params body captured args) :=
  (Eval.Refines.refl _).bind fun inner => hev body inner

omit hev in
private theorem mapOnto {call call' : Value → Eval Value}
    (hcall : ∀ v, Eval.Refines (call v) (call' v)) (answers items : List Value) :
    Eval.Refines (Operator.mapOnto call answers items)
      (Operator.mapOnto call' answers items) := by
  induction items generalizing answers with
  | nil => exact .refl _
  | cons v rest ih =>
      rw [Operator.mapOnto_cons, Operator.mapOnto_cons]
      exact (hcall v).bind fun answer => ih (answer :: answers)

omit hev in
private theorem filterOnto {call call' : Value → Eval Value}
    (hcall : ∀ v, Eval.Refines (call v) (call' v)) (kept items : List Value) :
    Eval.Refines (Operator.filterOnto call kept items)
      (Operator.filterOnto call' kept items) := by
  induction items generalizing kept with
  | nil => exact .refl _
  | cons v rest ih =>
      rw [Operator.filterOnto_cons, Operator.filterOnto_cons]
      refine (hcall v).bind fun answer => ?_
      split
      · exact ih (v :: kept)
      · exact ih kept
      · exact .refl _

private theorem overList (op : Operator)
    {loop : (Value → Eval Value) → List Value → List Value → Eval (List Value)}
    (hloop : ∀ {call call' : Value → Eval Value}, (∀ v, Eval.Refines (call v) (call' v)) →
      ∀ done items, Eval.Refines (loop call done items) (loop call' done items))
    (args : List Value) :
    Eval.Refines (Operator.overList op ev loop args) (Operator.overList op ev' loop args) := by
  unfold Operator.overList
  split
  · exact (hloop (fun v => hev.callClosure _ _ _ _) _ _).bind fun _ => .refl _
  · exact .refl _
  · exact .refl _
  · exact .refl _

private theorem tailOf (args : List Value) :
    Eval.Refines (Operator.tailOf ev args) (Operator.tailOf ev' args) := by
  unfold Operator.tailOf
  split
  · exact .refl _
  · rename_i v _
    cases v with
    | lazyCell head rest captured => exact hev.forceRest rest captured
    | _ => exact .refl _
  · exact .refl _

private theorem takeOf (args : List Value) :
    Eval.Refines (Operator.takeOf ev scope args) (Operator.takeOf ev' scope args) := by
  unfold Operator.takeOf
  split
  · refine (Eval.Refines.refl _).bind fun count => ?_
    split
    · exact .refl _
    · split
      · exact (hev.takeFrom _ _ _).bind fun _ => .refl _
      · exact .refl _
  · exact .refl _

/-- The run of an operator is refined by a finer evaluator. -/
theorem run (args : List Value) (op : Operator) :
    Eval.Refines (Operator.run ev scope args op) (Operator.run ev' scope args op) := by
  cases op with
  | tail => exact hev.tailOf args
  | filter => exact hev.overList .filter filterOnto args
  | map => exact hev.overList .map mapOnto args
  | take => exact hev.takeOf args
  | _ => exact .refl _

/-! ## Special forms -/

private theorem defineOf (args : List Value) :
    Eval.Refines (SpecialForm.defineOf ev scope args) (SpecialForm.defineOf ev' scope args) := by
  unfold SpecialForm.defineOf
  split
  · refine (Eval.Refines.refl _).bind fun inner => ?_
    exact (hev _ inner).bind fun _ => .refl _
  · exact .refl _
  · exact .refl _

theorem paramsOf (params : Value) :
    Eval.Refines (SpecialForm.paramsOf ev scope params)
      (SpecialForm.paramsOf ev' scope params) := by
  unfold SpecialForm.paramsOf
  split
  · exact (hev _ scope).bind fun _ => .refl _
  · exact .refl _

private theorem functionOf (args : List Value) :
    Eval.Refines (SpecialForm.functionOf ev scope args)
      (SpecialForm.functionOf ev' scope args) := by
  unfold SpecialForm.functionOf
  split
  · exact (hev.paramsOf _).bind fun _ => .refl _
  · exact .refl _

private theorem templateOf (args : List Value) :
    Eval.Refines (SpecialForm.templateOf ev scope args)
      (SpecialForm.templateOf ev' scope args) := by
  unfold SpecialForm.templateOf
  split
  · exact (hev.paramsOf _).bind fun _ => .refl _
  · exact .refl _

private theorem lazyPairOf (args : List Value) :
    Eval.Refines (SpecialForm.lazyPairOf ev scope args)
      (SpecialForm.lazyPairOf ev' scope args) := by
  unfold SpecialForm.lazyPairOf
  split
  · exact (hev _ scope).bind fun _ => .refl _
  · exact (hev _ scope).bind fun _ => .refl _
  · exact .refl _

private theorem conditionalOf (args : List Value) :
    Eval.Refines (Direct.conditionalOf ev scope args) (Direct.conditionalOf ev' scope args) := by
  unfold Direct.conditionalOf
  split
  · refine (hev _ scope).bind fun v => ?_
    split
    · exact hev _ scope
    · exact hev _ scope
    · exact .refl _
  · exact .refl _

theorem sequenceOf (args : List Value) :
    Eval.Refines (Direct.sequenceOf ev scope args) (Direct.sequenceOf ev' scope args) := by
  induction args with
  | nil => exact .refl _
  | cons form rest ih =>
      cases rest with
      | nil => exact (Eval.Refines.refl _).bind fun inner => hev form inner
      | cons next more =>
          refine (Eval.Refines.refl _).bind fun inner => ?_
          exact (hev form inner).bind fun _ => ih

theorem appliedTo (form : Value) :
    Eval.Refines (SpecialForm.appliedTo ev scope form) (SpecialForm.appliedTo ev' scope form) := by
  unfold SpecialForm.appliedTo
  split
  · exact (Eval.Refines.refl _).bind fun inner => hev form inner
  · exact .refl _

theorem applyCallee (values : List Value) (head : Value) :
    Eval.Refines (Direct.applyCallee ev values head) (Direct.applyCallee ev' values head) := by
  unfold Direct.applyCallee
  split
  · exact hev.callClosure _ _ _ values
  · exact .refl _

theorem applyValues (form : Value) (values : List Value) :
    Eval.Refines (Direct.applyValues ev scope form values)
      (Direct.applyValues ev' scope form values) := by
  unfold Direct.applyValues
  split
  · split
    · exact hev.run values _
    · exact .refl _
    · exact (hev _ scope).bind fun head => hev.applyCallee values head
  · exact (hev _ scope).bind fun head => hev.applyCallee values head
  · exact hev.applyCallee values form

private theorem applyOf {fuel fuel' : Nat} (hle : fuel ≤ fuel') (args : List Value) :
    Eval.Refines (Direct.applyOf fuel ev scope args) (Direct.applyOf fuel' ev' scope args) := by
  unfold Direct.applyOf
  split
  · refine (hev.appliedTo _).bind fun sequence => ?_
    split
    · exact (hev.takeAll hle _ _).bind fun values => hev.applyValues _ values
    · exact .refl _
  · exact .refl _

private theorem special {fuel fuel' : Nat} (hle : fuel ≤ fuel') (args : List Value)
    (form : SpecialForm) :
    Eval.Refines (Direct.special fuel ev scope args form)
      (Direct.special fuel' ev' scope args form) := by
  cases form with
  | lazyPair => exact hev.lazyPairOf args
  | conditional => exact hev.conditionalOf args
  | define => exact hev.defineOf args
  | sequence => exact hev.sequenceOf args
  | function => exact hev.functionOf args
  | template => exact hev.templateOf args
  | apply => exact hev.applyOf hle args

/-! ## Calls and forms -/

theorem arguments (forms : List Value) :
    Eval.Refines (Evaluation.arguments ev scope forms) (Evaluation.arguments ev' scope forms) := by
  induction forms with
  | nil => exact .refl _
  | cons form rest ih => exact (hev form scope).bind fun _ => ih.bind fun _ => .refl _

private theorem calleeValue (callee : Value) :
    Eval.Refines (Evaluation.calleeValue ev scope callee)
      (Evaluation.calleeValue ev' scope callee) := by
  unfold Evaluation.calleeValue
  split
  · exact .refl _
  · exact .refl _
  · exact hev callee scope

private theorem call {fuel fuel' : Nat} (hle : fuel ≤ fuel') (callee : Value) (args : List Value)
    (span : Span) :
    Eval.Refines (Direct.call fuel ev scope callee args span)
      (Direct.call fuel' ev' scope callee args span) := by
  unfold Direct.call
  split
  · refine ((hev.arguments args).within callee args span).bind fun values => ?_
    exact (hev.run values _).within callee values span
  · exact (hev.special hle args _).within callee args span
  · refine ((hev.calleeValue callee).within callee args span).bind fun head => ?_
    split
    · refine ((hev.arguments args).within callee args span).bind fun values => ?_
      exact (hev.callClosure _ _ _ values).within callee values span
    · refine (Eval.Refines.refl _).bind fun expanded => ?_
      exact (hev expanded scope).within callee args span
    · exact .refl _

/-- One level of evaluation is refined by a finer evaluator and more fuel. -/
theorem form {fuel fuel' : Nat} (hle : fuel ≤ fuel') (v : Value) :
    Eval.Refines (Direct.form fuel ev scope v) (Direct.form fuel' ev' scope v) := by
  cases v with
  | call callee args span => exact hev.call hle callee args span
  | _ => exact .refl _

end Evaluator.Refines

/-- More fuel refines an evaluation by plain recursion. -/
theorem Direct.evaluate_refines {fuel fuel' : Nat} (hle : fuel ≤ fuel') :
    Evaluator.Refines (Direct.evaluate fuel) (Direct.evaluate fuel') := by
  induction fuel generalizing fuel' with
  | zero => exact fun _ _ => .outOfFuel _
  | succ fuel ih =>
      intro v scope
      obtain ⟨more, rfl⟩ : ∃ more, fuel' = more + 1 := ⟨fuel' - 1, by omega⟩
      have hle := Nat.le_of_succ_le_succ hle
      exact (ih hle).form hle v

end LazyLisp
