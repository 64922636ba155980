import LazyLisp.Proofs.Mirror.Operators

/-!
# Evaluation mirrors itself

The special forms, calls and single steps of evaluation do the same on images,
as long as the evaluations inside them do.  With the fuel as the measure this
closes to one statement about a lawful mirror: whatever is evaluated in a scope
over a store comes out, up to images, as it does in the image of the scope over
a linked store, with the very same fuel.

## Main results

* `Reflects.special` — the special forms.
* `Reflects.step` — every step.
* `evaluate_mirrors` — evaluation, whatever the fuel.
-/

namespace LazyLisp

/-- What a step leads to, with images of scopes. -/
def Next.mapScopes (g : Scope → Scope) : Next → Next
  | .value v => .value (v.mapScopes g)
  | .form code scope => .form (code.mapScopes g) (g scope)

/-- What a step leads to in the other run. -/
abbrev Mirror.next (M : Mirror) (n : Next) : Next := n.mapScopes M.image

namespace Discipline.Reflects

open Evaluation (primitive? arguments calleeValue resume evaluate)

variable {D : Discipline} {M : Mirror} {ev : Evaluator} {w : D.World} {scope : Scope}
  (h : D.Reflects M ev)

include h

/-! ## Special forms -/

omit h in
/-- A value in the place of a step. -/
theorem value {E : Failure → Prop} {x y : Eval Value} (hxy : Mirrors D M w M.value x y)
    (hx : Safe D E w x fun u v => D.Data u v) :
    Mirrors D M w M.next (Next.value <$> x) (Next.value <$> y) :=
  Mirrors.map hxy hx fun _ => rfl

private theorem conditionalOf {args : List Value} (hargs : ∀ form ∈ args, D.Code w scope form) :
    Mirrors D M w M.next (SpecialForm.conditionalOf ev scope args)
      (SpecialForm.conditionalOf ev (M.image scope) (M.values args)) := by
  match args with
  | [condition, positive, negative] =>
      have hcondition := hargs condition (by simp)
      refine h.bind_evaluate hcondition fun u answer _ _ => ?_
      cases answer with
      | boolean b =>
          cases b with
          | true => exact .pure (Next.form positive scope)
          | false => exact .pure (Next.form negative scope)
      | _ => exact .fail (.conditionNotBoolean _)
  | [] | [_] | [_, _] | _ :: _ :: _ :: _ :: _ => exact .arity (.special .conditional) _

private theorem defineOf {callee : Value} {args : List Value} {span : Span}
    (hcall : D.Code w scope (.call callee args span))
    (hp : primitive? callee = some (.special .define)) :
    Mirrors D M w M.value (SpecialForm.defineOf ev scope args)
      (SpecialForm.defineOf ev (M.image scope) (M.values args)) := by
  match args with
  | [target, form] =>
      cases target with
      | symbol name =>
          have hscope := h.lawful.code_within hcall
          have hform := h.lawful.call_define hcall hp
          refine h.bind_openInner hscope fun u inner hle hinner => ?_
          have hinner := hinner form hform
          refine h.bind_evaluate hinner fun u' v hle' hv => ?_
          have hscope' := h.lawful.within_mono (h.lawful.le_trans hle hle') hscope
          have hdefine : Safe D D.Raised u' (Eval.define scope.rootFrame name v) _ :=
            Safe.define h.lawful hscope' hv name
          exact Mirrors.bind (.define h.mirror hscope' name v) hdefine
            fun _ _ _ _ => .pure (Value.symbol name)
      | _ => exact .fail (.targetNotSymbol _)
  | [] | [_] | _ :: _ :: _ :: _ =>
      rw [SpecialForm.defineOf_of_length_ne (by simp), SpecialForm.defineOf_of_length_ne (by simp)]
      exact .arity (.special .define) _

private theorem sequenceOf (hscope : D.Within w scope) {args : List Value}
    (hargs : ∀ form ∈ args, D.Code w scope form) :
    Mirrors D M w M.next (SpecialForm.sequenceOf ev scope args)
      (SpecialForm.sequenceOf ev (M.image scope) (M.values args)) := by
  induction args generalizing w with
  | nil => exact .pure (Next.value .nil)
  | cons form rest ih =>
      obtain ⟨hform, hrest⟩ := List.forall_mem_cons.mp hargs
      cases rest with
      | nil =>
          exact h.bind_openInner hscope fun _ inner _ _ => .pure (Next.form form inner)
      | cons next more =>
          refine h.bind_openInner hscope fun u inner hle hinner => ?_
          have hinner := hinner form hform
          refine h.bind_evaluate hinner fun u' _ hle' _ => ?_
          have hlater := h.lawful.le_trans hle hle'
          exact ih (h.lawful.within_mono hlater hscope)
            fun f hf => h.lawful.code_mono hlater (hrest f hf)

theorem paramsOf {params : Value} (hparams : params.kind = .symbol → D.Code w scope params) :
    Mirrors D M w id (SpecialForm.paramsOf ev scope params)
      (SpecialForm.paramsOf ev (M.image scope) (M.value params)) := by
  by_cases hsymbol : ∃ name, params = .symbol name
  · obtain ⟨name, rfl⟩ := hsymbol
    have hname := hparams rfl
    exact h.bind_evaluate hname fun _ v _ _ => .ofExcept (readParams_rescopes v)
  · have hother (s : Scope) (v : Value) (hv : ¬ ∃ name, v = .symbol name) :
        SpecialForm.paramsOf ev s v = Eval.ofExcept (readParams v) := by
      cases v <;> first | rfl | exact absurd ⟨_, rfl⟩ hv
    have himage : ¬ ∃ name, M.value params = .symbol name := by
      rintro ⟨name, hname⟩
      cases params <;> first | (cases hname; done) | exact hsymbol ⟨_, rfl⟩
    rw [hother _ _ hsymbol, hother _ _ himage]
    exact .ofExcept (readParams_rescopes params)

private theorem functionOf {callee : Value} {args : List Value} {span : Span}
    (hcall : D.Code w scope (.call callee args span))
    (hp : primitive? callee = some (.special .function)) :
    Mirrors D M w M.value (SpecialForm.functionOf ev scope args)
      (SpecialForm.functionOf ev (M.image scope) (M.values args)) := by
  match args with
  | [params, body] =>
      obtain ⟨hparams, -⟩ := h.lawful.call_function hcall hp
      exact Mirrors.bind (h.paramsOf hparams) (paramsOf_safe h.lawful h.safe hparams)
        fun _ names _ _ => .newClosure h.mirror names body scope
  | [] | [_] | _ :: _ :: _ :: _ => exact .arity (.special .function) _

private theorem templateOf {callee : Value} {args : List Value} {span : Span}
    (hcall : D.Code w scope (.call callee args span))
    (hp : primitive? callee = some (.special .template)) :
    Mirrors D M w M.value (SpecialForm.templateOf ev scope args)
      (SpecialForm.templateOf ev (M.image scope) (M.values args)) := by
  match args with
  | [params, body] =>
      obtain ⟨hparams, -⟩ := h.lawful.call_template hcall hp
      exact Mirrors.bind (h.paramsOf hparams) (paramsOf_safe h.lawful h.safe hparams)
        fun _ names _ _ => .pure (Value.template names body)
  | [] | [_] | _ :: _ :: _ :: _ => exact .arity (.special .template) _

private theorem lazyPairOf {args : List Value} (hargs : ∀ form ∈ args, D.Code w scope form) :
    Mirrors D M w M.value (SpecialForm.lazyPairOf ev scope args)
      (SpecialForm.lazyPairOf ev (M.image scope) (M.values args)) := by
  match args with
  | [form] =>
      have hform := hargs form (by simp)
      exact h.bind_evaluate hform fun _ head _ _ => .pure (Value.lastCell head)
  | [form, rest] =>
      have hform := hargs form (by simp)
      refine h.bind_evaluate hform fun u head _ _ => ?_
      rw [Value.isPending_mapScopes, Value.kind_mapScopes]
      split
      · exact .pure (Value.lazyCell head rest scope)
      · exact .fail (.restNotForm rest.kind)
  | [] | _ :: _ :: _ :: _ => exact .arity (.special .lazyPair) _

private theorem appliedTo {form : Value} (hform : D.Code w scope form) :
    Mirrors D M w M.value (SpecialForm.appliedTo ev scope form)
      (SpecialForm.appliedTo ev (M.image scope) (M.value form)) := by
  unfold SpecialForm.appliedTo
  rw [Value.isPending_mapScopes]
  split
  · have hscope := h.lawful.code_within hform
    exact h.bind_openInner hscope fun u inner _ hinner => h.follows u inner form (hinner form hform)
  · exact .pure form

private theorem applyCallee {values : List Value} (hvalues : ∀ v ∈ values, D.Data w v)
    {head : Value} (hhead : D.Data w head) :
    Mirrors D M w M.next (SpecialForm.applyCallee values head)
      (SpecialForm.applyCallee (M.values values) (M.value head)) := by
  cases head with
  | closure serial params body captured =>
      exact Mirrors.bind (h.bindParams hhead values) (bindParams_safe h.lawful hhead hvalues)
        fun _ inner _ _ => .pure (Next.form body inner)
  | _ => exact .fail (.appliedNotFunction _)

private theorem applyValues {form : Value} (hscope : D.Within w scope)
    (hform : primitive? form = none → D.Code w scope form)
    {values : List Value} (hvalues : ∀ v ∈ values, D.Data w v) :
    Mirrors D M w M.next (SpecialForm.applyValues ev scope form values)
      (SpecialForm.applyValues ev (M.image scope) (M.value form) (M.values values)) := by
  have onForm (hnone : primitive? form = none) :
      Mirrors D M w M.next (ev form scope >>= SpecialForm.applyCallee values)
        (ev (M.value form) (M.image scope) >>= SpecialForm.applyCallee (M.values values)) := by
    have hform := hform hnone
    refine h.bind_evaluate hform fun u head hle hhead => ?_
    exact h.applyCallee (fun v hv => h.lawful.data_mono hle (hvalues v hv)) hhead
  cases form with
  | symbol name =>
      simp only [Mirror.value, Value.mapScopes, SpecialForm.applyValues]
      cases hname : Primitive.ofName? name with
      | none => exact onForm hname
      | some p =>
          cases p with
          | operator op =>
              exact Mirrors.bind (h.run hvalues op) (run_safe h.lawful h.safe hscope hvalues op)
                fun _ v _ _ => .pure (Next.value v)
          | special form => exact .fail (.notApplicable form)
  | call callee args span => exact onForm rfl
  | _ => exact h.applyCallee hvalues (h.lawful.code_self (hform rfl) rfl)

private theorem applyOf (fuel : Nat) {callee : Value} {args : List Value} {span : Span}
    (hcall : D.Code w scope (.call callee args span))
    (hp : primitive? callee = some (.special .apply)) :
    Mirrors D M w M.next (SpecialForm.applyOf fuel ev scope args)
      (SpecialForm.applyOf fuel ev (M.image scope) (M.values args)) := by
  match args with
  | [form, sequence] =>
      obtain ⟨hsequence, hform⟩ := h.lawful.call_apply hcall hp
      refine Mirrors.bind (h.appliedTo hsequence) (appliedTo_safe h.lawful h.safe hsequence)
        fun u v hle hv => ?_
      rw [Value.isSequence_mapScopes, Value.kind_mapScopes]
      split
      · have hcursor : CursorOk D u (.before v) := hv
        have htaken : ∀ v ∈ ([] : List Value), D.Data u v := by simp
        refine Mirrors.bind (h.takeAll fuel hcursor [])
          (takeAll_safe h.lawful h.safe fuel hcursor htaken) fun u' vs hle' hvs => ?_
        have hlater := h.lawful.le_trans hle hle'
        exact h.applyValues (h.lawful.within_mono hlater (h.lawful.code_within hcall))
          (fun hnone => h.lawful.code_mono hlater (hform hnone)) hvs
      · exact .fail (.notSequence (.special .apply) v.kind)
  | [] | [_] | _ :: _ :: _ :: _ => exact .arity (.special .apply) _

/-- The special forms. -/
theorem special (fuel : Nat) {callee : Value} {args : List Value} {span : Span}
    (hcall : D.Code w scope (.call callee args span)) {form : SpecialForm}
    (hp : primitive? callee = some (.special form)) :
    Mirrors D M w M.next (form.run fuel ev scope args)
      (form.run fuel ev (M.image scope) (M.values args)) := by
  have hargs (hall : (Primitive.special form).evaluatesAll = true) :
      ∀ f ∈ args, D.Code w scope f := fun f hf => h.lawful.call_args hcall hp hall hf
  cases form with
  | lazyPair =>
      exact value (h.lazyPairOf (hargs rfl)) (lazyPairOf_safe h.lawful h.safe (hargs rfl))
  | conditional => exact h.conditionalOf (hargs rfl)
  | define => exact value (h.defineOf hcall hp) (defineOf_safe h.lawful h.safe hcall hp)
  | sequence => exact h.sequenceOf (h.lawful.code_within hcall) (hargs rfl)
  | function => exact value (h.functionOf hcall hp) (functionOf_safe h.lawful h.safe hcall hp)
  | template => exact value (h.templateOf hcall hp) (templateOf_safe h.lawful h.safe hcall hp)
  | apply => exact h.applyOf fuel hcall hp

/-! ## Calls and steps -/

private theorem arguments {args : List Value} (hargs : ∀ form ∈ args, D.Code w scope form) :
    Mirrors D M w M.values (arguments ev scope args)
      (Evaluation.arguments ev (M.image scope) (M.values args)) := by
  induction args generalizing w with
  | nil => exact .pure []
  | cons form rest ih =>
      obtain ⟨hform, hrest⟩ := List.forall_mem_cons.mp hargs
      refine h.bind_evaluate hform fun u v hle _ => ?_
      have hrest := fun f hf => h.lawful.code_mono hle (hrest f hf)
      exact Mirrors.bind (ih hrest) (arguments_safe h.lawful h.safe hrest)
        fun _ vs _ _ => .pure (v :: vs)

private theorem calleeValue {callee : Value} (hcallee : D.Code w scope callee) :
    Mirrors D M w M.value (calleeValue ev scope callee)
      (Evaluation.calleeValue ev (M.image scope) (M.value callee)) := by
  cases callee with
  | closure serial params body captured => exact .pure (Value.closure serial params body captured)
  | template params body => exact .pure (Value.template params body)
  | _ => exact h.follows w scope _ hcallee

private theorem call (fuel : Nat) {callee : Value} {args : List Value} {span : Span}
    (hcall : D.Code w scope (.call callee args span)) :
    Mirrors D M w M.next (Evaluation.call fuel ev scope callee args span)
      (Evaluation.call fuel ev (M.image scope) (M.value callee) (M.values args) span) := by
  unfold Evaluation.call
  rw [primitive?_mapScopes]
  cases hp : primitive? callee with
  | some p =>
      cases p with
      | operator op =>
          have hargs : ∀ form ∈ args, D.Code w scope form :=
            fun form hform => h.lawful.call_args hcall hp rfl hform
          refine Mirrors.bind ((h.arguments hargs).within callee args span)
            ((arguments_safe h.lawful h.safe hargs).within callee args span) fun u vs hle hvs => ?_
          have hrun := run_safe h.lawful h.safe
            (h.lawful.within_mono hle (h.lawful.code_within hcall)) hvs op
          exact Mirrors.bind ((h.run hvs op).within callee vs span) (hrun.within callee vs span)
            fun _ v _ _ => .pure (Next.value v)
      | special form => exact (h.special fuel hcall hp).within callee args span
  | none =>
      obtain ⟨hcallee, hargs⟩ := h.lawful.call_other hcall hp
      refine Mirrors.bind ((h.calleeValue hcallee).within callee args span)
        ((calleeValue_safe h.lawful h.safe hcallee).within callee args span)
        fun u head hle hhead => ?_
      cases head with
      | closure serial params body captured =>
          have hargs := fun form hform => h.lawful.code_mono hle (hargs form hform)
          refine Mirrors.bind ((h.arguments hargs).within callee args span)
            ((arguments_safe h.lawful h.safe hargs).within callee args span)
            fun u' vs hle' hvs => ?_
          have hhead := h.lawful.data_mono hle' hhead
          exact Mirrors.bind ((h.bindParams hhead vs).within callee vs span)
            ((bindParams_safe h.lawful hhead hvs).within callee vs span)
            fun _ inner _ _ => .pure (Next.form body inner)
      | template params body =>
          have hexpand : Mirrors D M u M.value
              (Eval.ofExcept (Template.expand params body args span))
              (Eval.ofExcept (Template.expand params (M.value body) (M.values args) span)) :=
            .ofExcept (expand_rescopes params body args span)
          have hanswers : Answers (Template.expand params body args span) fun _ => True := by
            unfold Template.expand
            split
            · exact trivial
            · rfl
          have hsafe : Safe D D.Raised u (Eval.ofExcept (Template.expand params body args span))
              fun _ _ => True := Safe.ofExcept h.lawful.toGrows hanswers fun _ _ => trivial
          exact Mirrors.bind (hexpand.within callee args span) (hsafe.within callee args span)
            fun _ form _ _ => .pure (Next.form form scope)
      | _ => exact (Mirrors.fail (.notCallable _)).within callee args span

/-- One step of code is mirrored by one step of its image. -/
theorem step (fuel : Nat) {form : Value} (hform : D.Code w scope form) :
    Mirrors D M w M.next (Evaluation.step fuel ev scope form)
      (Evaluation.step fuel ev (M.image scope) (M.value form)) := by
  cases form with
  | symbol name =>
      exact Mirrors.bind (.lookup h.mirror hform) (Safe.lookup h.lawful hform)
        fun _ v _ _ => .pure (Next.value v)
  | call callee args span =>
      show Mirrors D M w M.next _ (Evaluation.call fuel ev (M.image scope) (M.value callee)
        (Value.mapAllScopes M.image args) span)
      rw [Value.mapAllScopes_eq_map]
      exact h.call fuel hform
  | _ => exact .pure (Next.value _)

end Discipline.Reflects

/-- Evaluation follows a lawful mirror, whatever the fuel. -/
theorem Discipline.evaluate_mirrors {D : Discipline} {M : Mirror} (hD : D.Lawful)
    (hM : M.Lawful D) (fuel : Nat) : D.Follows M (Evaluation.evaluate fuel) := by
  induction fuel with
  | zero => exact fun _ _ _ _ _ _ _ _ => .exhausted
  | succ fuel ih =>
      intro w scope form hform
      have h : D.Reflects M (Evaluation.evaluate fuel) := ⟨hD, hM, D.evaluate_safe hD fuel, ih⟩
      by_cases hrange : ∃ low high, form = Operator.rangeCall low high
      · -- the one call that a discipline knows nothing of looks at no store
        obtain ⟨low, high, rfl⟩ := hrange
        intro σ τ _ hlink
        cases fuel with
        | zero => exact .exhausted
        | succ fuel =>
            show M.Ends M.value (.done (Operator.rangeFrom low high scope) σ)
              (.done (Operator.rangeFrom low high (M.image scope)) τ)
            rw [← rangeFrom_mapScopes low high (hM.root scope)]
            exact .done _ hlink
      · have hspelled : ∀ low high, form ≠ Operator.rangeCall low high :=
          fun low high heq => hrange ⟨low, high, heq⟩
        rw [Evaluation.evaluate_eq_bind, Evaluation.evaluate_eq_bind]
        refine Mirrors.bind (h.step fuel hform) (step_safe hD h.safe fuel hform hspelled)
          fun u next _ hnext => ?_
        cases next with
        | value v => exact .pure v
        | form next inner => exact ih u inner next hnext

end LazyLisp
