import LazyLisp.Proofs.Direct.Monotone

/-!
# The stepwise evaluator agrees with plain recursion

The evaluator goes from form to form in a loop: a conditional, a sequence, an
application, and the call of a function or of a template hand back the form
that decides their value.  Evaluating that form at once instead, inside the
call, gives the same: the step and what is left to do after it make up the
value of the form, except that more calls get to see a failure.

Both spend the same fuel, so the two evaluators agree at every amount of it,
and what the value is depends on no amount.

## Main results

* `step_agree` — a step, followed by what it leads to, is plain recursion.
* `evaluate_agree` — the two evaluators at the same fuel.
* `evaluate_iff_direct` — either evaluator ends if the other does, in the same
  way.
-/

namespace LazyLisp

open Eval Evaluation

variable {fuel : Nat} {ev : Evaluator} {scope : Scope}

/-! ## Special forms -/

/-- A step that computes a value has nothing left to do. -/
theorem value_resume (x : Eval Value) : (Next.value <$> x >>= resume ev) = x := by
  rw [map_eq_pure_bind, bind_assoc]
  simp only [pure_bind, resume]
  exact bind_pure x

private theorem conditionalOf_resume (args : List Value) :
    (SpecialForm.conditionalOf ev scope args >>= resume ev) =
      Direct.conditionalOf ev scope args := by
  match args with
  | [condition, positive, negative] =>
      rw [SpecialForm.conditionalOf, Direct.conditionalOf, bind_assoc]
      congr 1
      funext v
      cases v with
      | boolean b => cases b <;> rfl
      | _ => rfl
  | [] | [_] | [_, _] | _ :: _ :: _ :: _ :: _ => rfl

private theorem sequenceOf_resume (args : List Value) :
    (SpecialForm.sequenceOf ev scope args >>= resume ev) = Direct.sequenceOf ev scope args := by
  induction args with
  | nil => rfl
  | cons form rest ih =>
      cases rest with
      | nil =>
          rw [SpecialForm.sequenceOf, Direct.sequenceOf, bind_assoc]
          rfl
      | cons next more =>
          rw [SpecialForm.sequenceOf, Direct.sequenceOf, bind_assoc]
          · congr 1
            funext inner
            rw [bind_assoc, ih]
          · exact fun h => nomatch h
          · exact fun h => nomatch h

private theorem applyCallee_resume (values : List Value) (head : Value) :
    (SpecialForm.applyCallee values head >>= resume ev) = Direct.applyCallee ev values head := by
  cases head with
  | closure serial params body captured =>
      rw [SpecialForm.applyCallee, Direct.applyCallee, bind_assoc]
      rfl
  | _ => rfl

private theorem applyValues_resume (form : Value) (values : List Value) :
    (SpecialForm.applyValues ev scope form values >>= resume ev) =
      Direct.applyValues ev scope form values := by
  have onCallee (v : Value) : (ev v scope >>= SpecialForm.applyCallee values) >>= resume ev =
      (ev v scope >>= Direct.applyCallee ev values) := by
    rw [bind_assoc]
    congr 1
    funext head
    exact applyCallee_resume values head
  cases form with
  | symbol name =>
      simp only [SpecialForm.applyValues, Direct.applyValues]
      cases Primitive.ofName? name with
      | none => exact onCallee _
      | some p =>
          cases p with
          | operator op => exact value_resume (op.run ev scope values)
          | special special => rfl
  | call callee args span => exact onCallee _
  | _ =>
      rw [SpecialForm.applyValues, Direct.applyValues]
      · exact applyCallee_resume values _
      all_goals
        intros
        contradiction

private theorem applyOf_resume (args : List Value) :
    (SpecialForm.applyOf fuel ev scope args >>= resume ev) =
      Direct.applyOf fuel ev scope args := by
  match args with
  | [form, arguments] =>
      rw [SpecialForm.applyOf, Direct.applyOf, bind_assoc]
      congr 1
      funext sequence
      by_cases hsequence : sequence.isSequence = true
      · rw [if_pos hsequence, if_pos hsequence, bind_assoc]
        congr 1
        funext values
        exact applyValues_resume form values
      · rw [if_neg hsequence, if_neg hsequence]
        rfl
  | [] | [_] | _ :: _ :: _ :: _ => rfl

private theorem special_resume (args : List Value) (form : SpecialForm) :
    (SpecialForm.run fuel ev scope args form >>= resume ev) =
      Direct.special fuel ev scope args form := by
  cases form with
  | conditional => exact conditionalOf_resume args
  | sequence => exact sequenceOf_resume args
  | apply => exact applyOf_resume args
  | lazyPair | define | function | template => exact value_resume _

/-! ## Calls and steps -/

/-- A call followed by the form that it leads to, where a failure of that
form does not name the call. -/
theorem call_agree (callee : Value) (args : List Value) (span : Span) :
    Agree (call fuel ev scope callee args span >>= resume ev)
      (Direct.call fuel ev scope callee args span) := by
  simp only [call, Direct.call]
  cases primitive? callee with
  | some p =>
      cases p with
      | operator op =>
          simp only [bind_assoc, pure_bind, resume, bind_pure]
          exact .refl _
      | special form =>
          simp only [← special_resume args form]
          refine ((Agree.within _ callee args span).bind fun _ => .refl _).trans ?_
          exact (Agree.within _ callee args span).symm
  | none =>
      simp only [bind_assoc]
      refine (Agree.refl _).bind fun head => ?_
      cases head with
      | closure serial params body captured =>
          simp only [bind_assoc, pure_bind, resume]
          refine (Agree.refl _).bind fun values => ?_
          refine ((Agree.within _ callee values span).bind fun _ => .refl _).trans ?_
          exact (Agree.within _ callee values span).symm
      | template params body =>
          simp only [bind_assoc, pure_bind, resume]
          refine (Agree.refl _).bind fun form => ?_
          exact (Agree.within (ev form scope) callee args span).symm
      | _ => exact .refl _

/-- A step, followed by what it leads to, is the value of the form. -/
theorem step_agree (v : Value) :
    Agree (step fuel ev scope v >>= resume ev) (Direct.form fuel ev scope v) := by
  cases v with
  | call callee args span => exact call_agree callee args span
  | symbol name =>
      rw [step, Direct.form, bind_assoc]
      simp only [pure_bind, resume]
      rw [bind_pure]
      exact .refl _
  | _ => exact .refl _

/-! ## The two evaluators -/

/-- With the same fuel the two evaluators agree. -/
theorem evaluate_agree (fuel : Nat) (v : Value) (scope : Scope) :
    Agree (evaluate fuel v scope) (Direct.evaluate fuel v scope) := by
  induction fuel generalizing v scope with
  | zero => exact .refl _
  | succ fuel ih =>
      rw [evaluate_eq_bind, Direct.evaluate_succ]
      refine (step_agree v).trans (agree_iff.mpr ⟨?_, ?_⟩)
      · exact Evaluator.Refines.form (fun form scope => (ih form scope).refines) (Nat.le_refl _) v
      · exact Evaluator.Refines.form (fun form scope => (ih form scope).symm.refines)
          (Nat.le_refl _) v

/-- How an evaluation by plain recursion ends does not depend on the fuel
that it was given. -/
theorem direct_cause_eq {n m : Nat} {v : Value} {scope : Scope} {σ : Store}
    (hn : Direct.evaluate n v scope σ ≠ .exhausted)
    (hm : Direct.evaluate m v scope σ ≠ .exhausted) :
    (Direct.evaluate n v scope σ).cause = (Direct.evaluate m v scope σ).cause := by
  rcases Nat.le_total n m with hle | hle
  · exact (Direct.evaluate_refines hle v scope σ).resolve_left hn
  · exact ((Direct.evaluate_refines hle v scope σ).resolve_left hm).symm

/-- The evaluator that goes from form to form ends exactly if plain recursion
does, with the same value or the same fault, and with the same store and
printed text. -/
theorem evaluate_iff_direct (v : Value) (scope : Scope) (σ : Store) :
    ((∃ n, evaluate n v scope σ ≠ .exhausted) ↔
      ∃ m, Direct.evaluate m v scope σ ≠ .exhausted) ∧
    ∀ n m, evaluate n v scope σ ≠ .exhausted → Direct.evaluate m v scope σ ≠ .exhausted →
      (evaluate n v scope σ).cause = (Direct.evaluate m v scope σ).cause := by
  have hends (n : Nat) :
      evaluate n v scope σ ≠ .exhausted ↔ Direct.evaluate n v scope σ ≠ .exhausted := by
    rw [Ne, Ne, ← Outcome.cause_eq_exhausted, evaluate_agree n v scope σ,
      Outcome.cause_eq_exhausted]
  refine ⟨exists_congr hends, fun n m hn hm => ?_⟩
  rw [evaluate_agree n v scope σ]
  exact direct_cause_eq ((hends n).mp hn) hm

/-- A function whose body is an unbound name: plain recursion names the call
of the function, and the evaluator, which has left the call by then, does
not. -/
theorem evaluate_iff_direct_unbound :
    let v : Value := .call (.call (.symbol "fn") [.vector [], .symbol "y"] ⟨1, 10⟩) [] ⟨0, 11⟩
    let σ : Store := ⟨#[[]], 0, ""⟩
    (∃ f τ, evaluate 2 v (.global 0) σ = .failed f τ ∧ f.call.isNone = true) ∧
      (∃ f τ, Direct.evaluate 5 v (.global 0) σ = .failed f τ ∧ f.call.isSome = true) ∧
        (evaluate 2 v (.global 0) σ).cause = (Direct.evaluate 5 v (.global 0) σ).cause := by
  intro v σ
  have hstep : ∃ f τ, evaluate 2 v (.global 0) σ = .failed f τ ∧ f.call.isNone = true :=
    ⟨_, _, rfl, rfl⟩
  have hdirect : ∃ f τ, Direct.evaluate 5 v (.global 0) σ = .failed f τ ∧ f.call.isSome = true :=
    ⟨_, _, rfl, rfl⟩
  refine ⟨hstep, hdirect, (evaluate_iff_direct v (.global 0) σ).2 2 5 ?_ ?_⟩
  · obtain ⟨f, τ, h, -⟩ := hstep
    rw [h]
    exact nofun
  · obtain ⟨f, τ, h, -⟩ := hdirect
    rw [h]
    exact nofun

end LazyLisp
