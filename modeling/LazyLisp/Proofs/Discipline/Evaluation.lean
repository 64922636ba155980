import LazyLisp.Proofs.Discipline.Operators

/-!
# Evaluation keeps every discipline up

The special forms, calls and single steps of evaluation keep a lawful
discipline up as long as the evaluations inside them do.  The fuel that an
evaluation runs on is the measure of the one induction that closes the
circle.

The rest of a range stands aside.  It is a call that no program spells, so a
discipline may have nothing to allow for its failing, and it never does.

## Main results

* `special_safe` — a special form leads to data, or to code in a
  scope where it may be evaluated.
* `step_safe` — and so does every step.
* `evaluate_rangeCall` — the rest of a range is the range of the rest.
* `evaluate_safe` — code evaluates to data, whatever the fuel.
-/

namespace LazyLisp.Discipline

open Evaluation

variable {D : Discipline} {w : D.World} {scope : Scope} {ev : Evaluator}

/-- A step leads to data, or to code in a scope where it may be evaluated. -/
def NextOk (D : Discipline) (w : D.World) : Next → Prop
  | .value v => D.Data w v
  | .form form scope => D.Code w scope form

/-- A computation of a value, taken as a step. -/
theorem Safe.value (hD : D.Lawful) {E : Failure → Prop} {x : Eval Value}
    (h : Safe D E w x fun w' v => D.Data w' v) : Safe D E w (Next.value <$> x) (NextOk D) :=
  Safe.map hD.toGrows h fun _ _ _ hv => hv

/-! ## Parameters -/

private theorem names_answers (items : List Value) :
    Answers (readParams.names items) fun _ => True := by
  induction items with
  | nil => exact trivial
  | cons item rest ih =>
      cases item with
      | symbol name =>
          rw [readParams.names]
          cases h : readParams.names rest with
          | ok names => exact trivial
          | error fault =>
              rw [h] at ih
              exact ih
      | _ => rfl

/-- A parameter list can be read, or it has a fault of its own. -/
theorem readParams_answers (v : Value) :
    Answers (readParams v) fun names => readParams v = .ok names := by
  have h : Answers (readParams v) fun _ => True := by
    cases v with
    | vector items => exact names_answers items
    | _ => rfl
  cases hv : readParams v with
  | ok names => rfl
  | error fault =>
      rw [hv] at h
      exact h

/-- A symbol in the place of a parameter list is evaluated; any other form is read
as it stands. -/
theorem paramsOf_safe (hD : D.Lawful) (hev : D.Evaluates ev) {params : Value}
    (h : params.kind = .symbol → D.Code w scope params) :
    Safe D D.Raised w (SpecialForm.paramsOf ev scope params) fun _ names =>
      params.kind ≠ .symbol → readParams params = .ok names := by
  unfold SpecialForm.paramsOf
  split
  · rename_i name
    refine Safe.bind hD.toGrows (hev.raised (h rfl)) fun u v _ _ => ?_
    exact Safe.ofExcept hD.toGrows (readParams_answers v) fun _ _ hne => absurd rfl hne
  · exact Safe.ofExcept hD.toGrows (readParams_answers params) fun _ hnames _ => hnames

/-! ## Special forms -/

section Special

variable {callee : Value} {args : List Value} {span : Span}

private theorem conditionalOf_safe (hD : D.Lawful) (hev : D.Evaluates ev)
    (h : ∀ form ∈ args, D.Code w scope form) :
    Safe D D.Raised w (SpecialForm.conditionalOf ev scope args) (NextOk D) := by
  unfold SpecialForm.conditionalOf
  split
  · rename_i condition positive negative
    refine Safe.bind hD.toGrows (hev.raised (h condition (by simp))) fun u v hle _ => ?_
    split
    · exact Safe.pure hD.toGrows (hD.code_mono hle (h positive (by simp)))
    · exact Safe.pure hD.toGrows (hD.code_mono hle (h negative (by simp)))
    · exact Safe.fail hD.toGrows rfl
  · exact Safe.fail hD.toGrows rfl

/-- A definition binds data in the global frame and answers its name. -/
theorem defineOf_safe (hD : D.Lawful) (hev : D.Evaluates ev)
    (hcall : D.Code w scope (.call callee args span))
    (hp : primitive? callee = some (.special .define)) :
    Safe D D.Raised w (SpecialForm.defineOf ev scope args) fun w' v => D.Data w' v := by
  unfold SpecialForm.defineOf
  split
  · rename_i name form
    have hscope := hD.code_within hcall
    have hform := hD.call_define hcall hp
    refine Safe.bind hD.toGrows (Safe.openInner hD hscope) fun u inner hle hinner => ?_
    refine Safe.bind hD.toGrows (hev.raised (hinner form hform)) fun u' v hle' hv => ?_
    have hscope' := hD.within_mono (hD.le_trans hle hle') hscope
    refine Safe.bind hD.toGrows (Safe.define hD hscope' hv name) fun _ _ _ _ => ?_
    exact Safe.pure hD.toGrows (hD.atomic rfl)
  · exact Safe.fail hD.toGrows rfl
  · exact Safe.fail hD.toGrows rfl

private theorem sequenceOf_safe (hD : D.Lawful) (hev : D.Evaluates ev) (hscope : D.Within w scope)
    (h : ∀ form ∈ args, D.Code w scope form) :
    Safe D D.Raised w (SpecialForm.sequenceOf ev scope args) (NextOk D) := by
  induction args generalizing w with
  | nil => exact Safe.pure hD.toGrows (hD.atomic rfl)
  | cons form rest ih =>
      obtain ⟨hform, hrest⟩ := List.forall_mem_cons.mp h
      cases rest with
      | nil =>
          refine Safe.bind hD.toGrows (Safe.openInner hD hscope) fun u inner _ hinner => ?_
          exact Safe.pure hD.toGrows (hinner form hform)
      | cons next more =>
          refine Safe.bind hD.toGrows (Safe.openInner hD hscope) fun u inner hle hinner => ?_
          refine Safe.bind hD.toGrows (hev.raised (hinner form hform)) fun u' _ hle' _ => ?_
          have hlater := hD.le_trans hle hle'
          exact ih (hD.within_mono hlater hscope) fun f hf => hD.code_mono hlater (hrest f hf)

/-- A function form gives a closure over the scope it stands in. -/
theorem functionOf_safe (hD : D.Lawful) (hev : D.Evaluates ev)
    (hcall : D.Code w scope (.call callee args span))
    (hp : primitive? callee = some (.special .function)) :
    Safe D D.Raised w (SpecialForm.functionOf ev scope args) fun w' v => D.Data w' v := by
  unfold SpecialForm.functionOf
  split
  · rename_i params body
    obtain ⟨hparams, hclosure⟩ := hD.call_function hcall hp
    refine Safe.bind hD.toGrows (paramsOf_safe hD hev hparams) fun u names hle hnames => ?_
    exact Safe.newClosure hD fun serial => hD.data_mono hle (hclosure serial names hnames)
  · exact Safe.fail hD.toGrows rfl

/-- A template form gives a template with the body as it was written. -/
theorem templateOf_safe (hD : D.Lawful) (hev : D.Evaluates ev)
    (hcall : D.Code w scope (.call callee args span))
    (hp : primitive? callee = some (.special .template)) :
    Safe D D.Raised w (SpecialForm.templateOf ev scope args) fun w' v => D.Data w' v := by
  unfold SpecialForm.templateOf
  split
  · rename_i params body
    obtain ⟨hparams, htemplate⟩ := hD.call_template hcall hp
    refine Safe.bind hD.toGrows (paramsOf_safe hD hev hparams) fun u names hle _ => ?_
    exact Safe.pure hD.toGrows (hD.data_mono hle (htemplate names))
  · exact Safe.fail hD.toGrows rfl

/-- A lazy pair keeps the form of its rest and the scope for it. -/
theorem lazyPairOf_safe (hD : D.Lawful) (hev : D.Evaluates ev)
    (h : ∀ form ∈ args, D.Code w scope form) :
    Safe D D.Raised w (SpecialForm.lazyPairOf ev scope args) fun w' v => D.Data w' v := by
  unfold SpecialForm.lazyPairOf
  split
  · rename_i form
    refine Safe.bind hD.toGrows (hev.raised (h form (by simp))) fun u head _ hhead => ?_
    exact Safe.pure hD.toGrows (hD.lastCell.mpr hhead)
  · rename_i form rest
    refine Safe.bind hD.toGrows (hev.raised (h form (by simp))) fun u head hle hhead => ?_
    split
    · rename_i hpending
      have hrest := hD.code_mono hle (h rest (by simp))
      exact Safe.pure hD.toGrows (hD.pending hhead hpending hrest)
    · exact Safe.fail hD.toGrows rfl
  · exact Safe.fail hD.toGrows rfl

/-- The list of an application is data, whether it was evaluated or stands there. -/
theorem appliedTo_safe (hD : D.Lawful) (hev : D.Evaluates ev) {form : Value}
    (h : D.Code w scope form) :
    Safe D D.Raised w (SpecialForm.appliedTo ev scope form) fun w' v => D.Data w' v := by
  unfold SpecialForm.appliedTo
  split
  · refine Safe.bind hD.toGrows (Safe.openInner hD (hD.code_within h)) fun u inner _ hinner => ?_
    exact hev.raised (hinner form h)
  · rename_i hpending
    exact Safe.pure hD.toGrows (hD.code_self h (by simpa using hpending))

private theorem applyCallee_safe (hD : D.Lawful) {values : List Value}
    (hvalues : ∀ v ∈ values, D.Data w v) {head : Value} (hhead : D.Data w head) :
    Safe D D.Raised w (SpecialForm.applyCallee values head) (NextOk D) := by
  unfold SpecialForm.applyCallee
  split
  · refine Safe.bind hD.toGrows (bindParams_safe hD hhead hvalues) fun u inner _ hbody => ?_
    exact Safe.pure hD.toGrows hbody
  · exact Safe.fail hD.toGrows rfl

private theorem applyValues_safe (hD : D.Lawful) (hev : D.Evaluates ev) (hscope : D.Within w scope)
    {form : Value} (hform : primitive? form = none → D.Code w scope form)
    {values : List Value} (hvalues : ∀ v ∈ values, D.Data w v) :
    Safe D D.Raised w (SpecialForm.applyValues ev scope form values) (NextOk D) := by
  have onForm (hnone : primitive? form = none) :
      Safe D D.Raised w (ev form scope >>= SpecialForm.applyCallee values) (NextOk D) := by
    refine Safe.bind hD.toGrows (hev.raised (hform hnone)) fun u head hle hhead => ?_
    exact applyCallee_safe hD (fun v hv => hD.data_mono hle (hvalues v hv)) hhead
  unfold SpecialForm.applyValues
  split
  · split
    · refine Safe.bind hD.toGrows (run_safe hD hev hscope hvalues _) fun u v _ hv => ?_
      exact Safe.pure hD.toGrows hv
    · exact Safe.fail hD.toGrows rfl
    · rename_i hnone
      exact onForm hnone
  · exact onForm rfl
  · rename_i hsymbol hcall
    have hpending : form.isPending = false := by
      cases form with
      | symbol name => exact absurd rfl (hsymbol name)
      | call callee args span => exact absurd rfl (hcall callee args span)
      | _ => rfl
    have hnone : primitive? form = none := by
      cases form with
      | symbol name => exact absurd rfl (hsymbol name)
      | _ => rfl
    exact applyCallee_safe hD hvalues (hD.code_self (hform hnone) hpending)

private theorem applyOf_safe (hD : D.Lawful) (hev : D.Evaluates ev) (fuel : Nat)
    (hcall : D.Code w scope (.call callee args span))
    (hp : primitive? callee = some (.special .apply)) :
    Safe D D.Raised w (SpecialForm.applyOf fuel ev scope args) (NextOk D) := by
  unfold SpecialForm.applyOf
  split
  · rename_i form sequence
    obtain ⟨hsequence, hform⟩ := hD.call_apply hcall hp
    refine Safe.bind hD.toGrows (appliedTo_safe hD hev hsequence) fun u v hle hv => ?_
    split
    · have hcursor : CursorOk D u (.before v) := hv
      refine Safe.bind hD.toGrows (takeAll_safe hD hev fuel hcursor (by simp))
        fun u' vs hle' hvs => ?_
      have hlater := hD.le_trans hle hle'
      exact applyValues_safe hD hev (hD.within_mono hlater (hD.code_within hcall))
        (fun hnone => hD.code_mono hlater (hform hnone)) hvs
    · exact Safe.fail hD.toGrows rfl
  · exact Safe.fail hD.toGrows rfl

/-- A special form on the forms of a call that may be evaluated. -/
theorem special_safe (hD : D.Lawful) (hev : D.Evaluates ev) (fuel : Nat)
    (hcall : D.Code w scope (.call callee args span)) {special : SpecialForm}
    (hp : primitive? callee = some (.special special)) :
    Safe D D.Raised w (SpecialForm.run fuel ev scope args special) (NextOk D) := by
  have hargs (hall : (Primitive.special special).evaluatesAll = true) :
      ∀ form ∈ args, D.Code w scope form := fun form hform => hD.call_args hcall hp hall hform
  cases special with
  | lazyPair => exact (lazyPairOf_safe hD hev (hargs rfl)).value hD
  | conditional => exact conditionalOf_safe hD hev (hargs rfl)
  | define => exact (defineOf_safe hD hev hcall hp).value hD
  | sequence => exact sequenceOf_safe hD hev (hD.code_within hcall) (hargs rfl)
  | function => exact (functionOf_safe hD hev hcall hp).value hD
  | template => exact (templateOf_safe hD hev hcall hp).value hD
  | apply => exact applyOf_safe hD hev fuel hcall hp

end Special

/-! ## Calls and steps -/

/-- The arguments of a call are evaluated to data, from left to right. -/
theorem arguments_safe (hD : D.Lawful) (hev : D.Evaluates ev) {args : List Value}
    (h : ∀ form ∈ args, D.Code w scope form) :
    Safe D D.Raised w (arguments ev scope args) fun w' vs => ∀ v ∈ vs, D.Data w' v := by
  induction args generalizing w with
  | nil => exact Safe.pure hD.toGrows (by simp)
  | cons form rest ih =>
      obtain ⟨hform, hrest⟩ := List.forall_mem_cons.mp h
      refine Safe.bind hD.toGrows (hev.raised hform) fun u v hle hv => ?_
      refine Safe.bind hD.toGrows (ih fun f hf => hD.code_mono hle (hrest f hf))
        fun u' vs hle' hvs => ?_
      exact Safe.pure hD.toGrows (List.forall_mem_cons.mpr ⟨hD.data_mono hle' hv, hvs⟩)

/-- The callee of a call is evaluated to data. -/
theorem calleeValue_safe (hD : D.Lawful) (hev : D.Evaluates ev) {callee : Value}
    (h : D.Code w scope callee) :
    Safe D D.Raised w (calleeValue ev scope callee) fun w' v => D.Data w' v := by
  unfold calleeValue
  split
  · exact Safe.pure hD.toGrows (hD.code_self h rfl)
  · exact Safe.pure hD.toGrows (hD.code_self h rfl)
  · exact hev.raised h

private theorem call_safe (hD : D.Lawful) (hev : D.Evaluates ev) (fuel : Nat) {callee : Value}
    {args : List Value} {span : Span} (hcall : D.Code w scope (.call callee args span))
    (hspelled : ∀ low high, Value.call callee args span ≠ Operator.rangeCall low high) :
    Safe D D.Allowed w (call fuel ev scope callee args span) (NextOk D) := by
  have hscope := hD.code_within hcall
  unfold call
  split
  · rename_i op hp
    have hargs : ∀ form ∈ args, D.Code w scope form :=
      fun form hform => hD.call_args hcall hp rfl hform
    refine Safe.bind hD.toGrows (Safe.inCall hD hcall hspelled (arguments_safe hD hev hargs))
      fun u vs hle hvs => ?_
    have hrun := run_safe hD hev (hD.within_mono hle hscope) hvs op
    refine Safe.bind hD.toGrows (Safe.inCall hD hcall hspelled hrun) fun _ v _ hv => ?_
    exact Safe.pure hD.toGrows hv
  · rename_i special hp
    exact Safe.inCall hD hcall hspelled (special_safe hD hev fuel hcall hp)
  · rename_i hp
    obtain ⟨hcallee, hargs⟩ := hD.call_other hcall hp
    refine Safe.bind hD.toGrows (Safe.inCall hD hcall hspelled (calleeValue_safe hD hev hcallee))
      fun u head hle hhead => ?_
    split
    · have hargs' := fun form hform => hD.code_mono hle (hargs form hform)
      refine Safe.bind hD.toGrows (Safe.inCall hD hcall hspelled (arguments_safe hD hev hargs'))
        fun u' vs hle' hvs => ?_
      have hbind := bindParams_safe hD (hD.data_mono hle' hhead) hvs
      refine Safe.bind hD.toGrows (Safe.inCall hD hcall hspelled hbind) fun _ inner _ hbody => ?_
      exact Safe.pure hD.toGrows hbody
    · rename_i params body
      have hexpand : Safe D D.Raised u (Eval.ofExcept (Template.expand params body args span))
          fun w' form => D.Code w' scope form := by
        unfold Template.expand
        split
        · rename_i hlen
          exact Safe.pure hD.toGrows (hD.call_expand (hD.code_mono hle hcall) hp hhead hlen)
        · exact Safe.fail hD.toGrows rfl
      refine Safe.bind hD.toGrows (Safe.inCall hD hcall hspelled hexpand) fun _ form _ hform => ?_
      exact Safe.pure hD.toGrows hform
    · exact Safe.inCall hD hcall hspelled (Safe.fail hD.toGrows rfl)

/-- One step of code that is no deferred range leads to data or to code. -/
theorem step_safe (hD : D.Lawful) (hev : D.Evaluates ev) (fuel : Nat) {form : Value}
    (h : D.Code w scope form) (hspelled : ∀ low high, form ≠ Operator.rangeCall low high) :
    Safe D D.Allowed w (step fuel ev scope form) (NextOk D) := by
  cases form with
  | symbol name =>
      exact Safe.bind hD.toGrows (Safe.lookup hD h) fun _ v _ hv => Safe.pure hD.toGrows hv
  | call callee args span => exact call_safe hD hev fuel h hspelled
  | _ => exact Safe.pure hD.toGrows (hD.code_self h rfl)

/-- The rest of a range is the range of the rest, unless fuel runs out. -/
theorem evaluate_rangeCall (fuel : Nat) (low high : Int64) (scope : Scope) (σ : Store) :
    evaluate fuel (Operator.rangeCall low high) scope σ = .exhausted ∨
      evaluate fuel (Operator.rangeCall low high) scope σ =
        .done (Operator.rangeFrom low high scope) σ := by
  match fuel with
  | 0 | 1 => exact .inl rfl
  | fuel + 2 => exact .inr rfl

private theorem rangeCall_safe (hD : D.Lawful) (fuel : Nat) (low high : Int64)
    (h : D.Code w scope (Operator.rangeCall low high)) :
    Safe D D.Allowed w (evaluate fuel (Operator.rangeCall low high) scope)
      fun w' v => D.Data w' v := by
  intro σ hσ
  rcases evaluate_rangeCall fuel low high scope σ with heq | heq
  · rw [heq]
    exact trivial
  · rw [heq]
    exact ⟨w, hD.le_refl w, hσ, rangeFrom_data hD low high (hD.code_within h)⟩

/-- Code evaluates to data, and the store stays in order. -/
theorem evaluate_safe (hD : D.Lawful) (fuel : Nat) : D.Evaluates (evaluate fuel) := by
  induction fuel with
  | zero => exact fun _ _ _ _ _ _ => trivial
  | succ fuel ih =>
      intro w scope form h
      by_cases hrange : ∃ low high, form = Operator.rangeCall low high
      · obtain ⟨low, high, rfl⟩ := hrange
        exact rangeCall_safe hD (fuel + 1) low high h
      · have hspelled : ∀ low high, form ≠ Operator.rangeCall low high :=
          fun low high heq => hrange ⟨low, high, heq⟩
        rw [evaluate_eq_bind]
        refine Safe.bind hD.toGrows (step_safe hD ih fuel h hspelled) fun u next _ hnext => ?_
        cases next with
        | value v => exact Safe.pure hD.toGrows hnext
        | form next inner => exact ih u inner next hnext

end LazyLisp.Discipline
