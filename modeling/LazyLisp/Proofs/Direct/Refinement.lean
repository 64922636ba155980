import LazyLisp.Outcome

/-!
# Comparing computations

Two ways of evaluating a form may name different calls in their failures,
and one of them may need more fuel than the other.  What is compared is all
the rest: the value or the fault, and the store with all that was printed.

A computation *refines* another one if it does not end, or ends as the other
one does.  Being refined is what more fuel does to an evaluation, and both
ways round it means that the two agree.

## Main results

* `Refines.bind`, `Refines.within` — refinement passes through all that the
  evaluator is made of.
* `Agree.within` — naming a call makes no difference.
-/

namespace LazyLisp

/-- The outcome without the calls that a failure names. -/
def Outcome.cause {α : Type} : Outcome Failure α → Outcome Fault α
  | .done a τ => .done a τ
  | .failed f τ => .failed f.fault τ
  | .exhausted => .exhausted

/-- The cause of an outcome has run out of fuel exactly if the outcome has. -/
theorem Outcome.cause_eq_exhausted {α : Type} {o : Outcome Failure α} :
    o.cause = .exhausted ↔ o = .exhausted := by
  cases o <;> simp [cause]

namespace Eval

variable {α β : Type}

instance : LawfulMonad Eval := LawfulMonad.mk' _
  (fun x => by
    funext σ
    show Eval.bind x Eval.pure σ = x σ
    unfold Eval.bind
    cases x σ <;> rfl)
  (fun _ _ => rfl)
  (fun x f g => by
    funext σ
    show Eval.bind (Eval.bind x f) g σ = Eval.bind x (fun a => Eval.bind (f a) g) σ
    unfold Eval.bind
    cases x σ <;> rfl)

/-- From any store, the first computation does not end, or both end in the
same way. -/
def Refines (x y : Eval α) : Prop := ∀ σ, x σ = .exhausted ∨ (x σ).cause = (y σ).cause

/-- From any store, both computations end in the same way, or neither ends. -/
def Agree (x y : Eval α) : Prop := ∀ σ, (x σ).cause = (y σ).cause

/-- Two computations agree if each refines the other. -/
theorem agree_iff {x y : Eval α} : Agree x y ↔ Refines x y ∧ Refines y x := by
  constructor
  · exact fun h => ⟨fun σ => .inr (h σ), fun σ => .inr (h σ).symm⟩
  · rintro ⟨hxy, hyx⟩ σ
    rcases hxy σ with hx | hcause
    · rcases hyx σ with hy | hcause
      · rw [hx, hy]
      · exact hcause.symm
    · exact hcause

namespace Refines

variable {x y z : Eval α}

theorem refl (x : Eval α) : Refines x x := fun _ => .inr rfl

theorem trans (h : Refines x y) (h' : Refines y z) : Refines x z := by
  intro σ
  rcases h σ with hx | hcause
  · exact .inl hx
  · rcases h' σ with hy | hcause'
    · refine .inl (Outcome.cause_eq_exhausted.mp ?_)
      rw [hcause, hy]
      rfl
    · exact .inr (hcause.trans hcause')

/-- A computation without fuel is refined by any other. -/
theorem outOfFuel (y : Eval α) : Refines Eval.outOfFuel y := fun _ => .inl rfl

/-- Refinement goes through a sequence of two computations. -/
theorem bind {f g : α → Eval β} (h : Refines x y) (hfg : ∀ a, Refines (f a) (g a)) :
    Refines (x >>= f) (y >>= g) := by
  intro σ
  cases hx : x σ with
  | exhausted => exact .inl (bind_exhausted hx)
  | done a τ =>
      have hy : y σ = .done a τ := by
        rcases h σ with hout | hcause
        · rw [hx] at hout
          cases hout
        · rw [hx] at hcause
          cases hy : y σ <;> rw [hy] at hcause <;> cases hcause
          rfl
      rw [bind_done hx, bind_done hy]
      exact hfg a τ
  | failed e τ =>
      obtain ⟨e', hy, hfault⟩ : ∃ e', y σ = .failed e' τ ∧ e.fault = e'.fault := by
        rcases h σ with hout | hcause
        · rw [hx] at hout
          cases hout
        · rw [hx] at hcause
          cases hy : y σ with
          | failed e' τ' =>
              rw [hy] at hcause
              simp only [Outcome.cause, Outcome.failed.injEq] at hcause
              exact ⟨e', by rw [hcause.2], hcause.1⟩
          | done a τ' =>
              rw [hy] at hcause
              cases hcause
          | exhausted =>
              rw [hy] at hcause
              cases hcause
      rw [bind_failed hx, bind_failed hy]
      exact .inr (by rw [Outcome.cause, Outcome.cause, hfault])

end Refines

namespace Agree

variable {x y z : Eval α}

theorem refl (x : Eval α) : Agree x x := fun _ => rfl

theorem symm (h : Agree x y) : Agree y x := fun σ => (h σ).symm

theorem trans (h : Agree x y) (h' : Agree y z) : Agree x z := fun σ => (h σ).trans (h' σ)

theorem refines (h : Agree x y) : Refines x y := (agree_iff.mp h).1

/-- Agreement goes through a sequence of two computations. -/
theorem bind {f g : α → Eval β} (h : Agree x y) (hfg : ∀ a, Agree (f a) (g a)) :
    Agree (x >>= f) (y >>= g) :=
  agree_iff.mpr ⟨h.refines.bind fun a => (hfg a).refines,
    h.symm.refines.bind fun a => (hfg a).symm.refines⟩

/-- The call that a failure names makes no difference. -/
theorem within (x : Eval α) (callee : Value) (args : List Value) (span : Span) :
    Agree (x.within callee args span) x := by
  intro σ
  unfold Eval.within
  cases x σ with
  | failed e τ => simp only [Outcome.cause, Failure.inCall_fault]
  | _ => rfl

end Agree

/-- It does not matter which call a failure is put into. -/
theorem Refines.within {x y : Eval α} (h : Refines x y) (callee : Value) (args : List Value)
    (span : Span) : Refines (x.within callee args span) (y.within callee args span) :=
  (Agree.within x callee args span).refines.trans
    (h.trans (Agree.within y callee args span).symm.refines)

end Eval

end LazyLisp
