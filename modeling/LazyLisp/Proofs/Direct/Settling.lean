import LazyLisp.Proofs.Direct.Agreement

/-!
# How an evaluation ends

An evaluation that has ended with some fuel ends in the same way with more, so
that one may speak of how it ends and leave the fuel out.  `Settles` says this
of any computation that is given fuel, with calls left out of failures.  What
is left of a sequence after its first form then starts where that form has
ended, although the two together need as much fuel as either of them.

## Main results

* `Settles.unique` — there is one way to end.
* `settles_bind_iff` — a computation and what follows it, each with fuel of
  its own.
* `settles_call_iff`, `settles_special_iff` — a call ends as its direct
  evaluation does.
* `settles_sequence_iff`, `settles_cons_iff` — sequences, form by form.
-/

namespace LazyLisp

open Eval Evaluation

variable {α β : Type}

/-- More fuel refines the computation. -/
def Steady (x : Nat → Eval α) : Prop := ∀ n m, n ≤ m → Refines (x n) (x m)

/-- With enough fuel the computation ends in this way. -/
def Settles (x : Nat → Eval α) (σ : Store) (c : Outcome Fault α) : Prop :=
  c ≠ .exhausted ∧ ∃ n, (x n σ).cause = c

theorem Outcome.eq_done_of_cause {o : Outcome Failure α} {a : α} {τ : Store}
    (h : o.cause = .done a τ) : o = .done a τ := by
  cases o <;> cases h
  rfl

section Settles

variable {x y : Nat → Eval α} {σ : Store} {c d : Outcome Fault α}

/-- What a computation has come to, it comes to with more fuel. -/
theorem Steady.cause_eq (hx : Steady x) {n m : Nat} (hle : n ≤ m) (h : (x n σ).cause = c)
    (hc : c ≠ .exhausted) : (x m σ).cause = c := by
  rcases hx n m hle σ with hout | hcause
  · rw [hout] at h
    exact absurd h.symm hc
  · rw [← hcause, h]

/-- There is one way to end. -/
theorem Settles.unique (hx : Steady x) (h : Settles x σ c) (h' : Settles x σ d) : c = d := by
  obtain ⟨hc, n, hn⟩ := h
  obtain ⟨hd, m, hm⟩ := h'
  have hmax := hx.cause_eq (Nat.le_max_left n m) hn hc
  rw [hx.cause_eq (Nat.le_max_right n m) hm hd] at hmax
  exact hmax.symm

/-- A value that one amount of fuel gives is how the computation ends. -/
theorem settles_of_done {a : α} {τ : Store} (n : Nat) (h : x n σ = .done a τ) :
    Settles x σ (.done a τ) :=
  ⟨nofun, n, by rw [h]; rfl⟩

/-- Computations that agree for every amount of fuel end in the same way. -/
theorem Settles.congr (hxy : ∀ n, Agree (x n) (y n)) : Settles x σ c ↔ Settles y σ c :=
  and_congr_right fun _ => exists_congr fun n => by rw [hxy n σ]

/-- Without fuel nothing ends, so a unit more is of no account. -/
theorem settles_succ_iff (hzero : x 0 σ = .exhausted) :
    Settles x σ c ↔ Settles (fun n => x (n + 1)) σ c := by
  refine and_congr_right fun hc => ⟨?_, fun ⟨n, hn⟩ => ⟨n + 1, hn⟩⟩
  rintro ⟨n, hn⟩
  cases n with
  | zero =>
      rw [hzero] at hn
      exact absurd hn.symm hc
  | succ n => exact ⟨n, hn⟩

/-- A computation ends if it fails, or if it has an answer and what follows
ends. -/
theorem settles_bind_iff {f : Nat → α → Eval β} {e : Outcome Fault β} (hx : Steady x)
    (hf : ∀ a, Steady fun n => f n a) :
    Settles (fun n => x n >>= f n) σ e ↔
      (∃ a τ, Settles x σ (.done a τ) ∧ Settles (fun n => f n a) τ e) ∨
        ∃ fault τ, Settles x σ (.failed fault τ) ∧ e = .failed fault τ := by
  constructor
  · rintro ⟨he, n, hn⟩
    have hn : ((x n >>= f n) σ).cause = e := hn
    cases hrun : x n σ with
    | done a τ =>
        rw [bind_done hrun] at hn
        exact .inl ⟨a, τ, ⟨nofun, n, by rw [hrun]; rfl⟩, he, n, hn⟩
    | failed failure τ =>
        rw [bind_failed hrun] at hn
        exact .inr ⟨failure.fault, τ, ⟨nofun, n, by rw [hrun]; rfl⟩, hn.symm⟩
    | exhausted =>
        rw [bind_exhausted hrun] at hn
        exact absurd hn.symm he
  · rintro (⟨a, τ, ⟨hdone, n, hn⟩, he, m, hm⟩ | ⟨fault, τ, ⟨hfailed, n, hn⟩, rfl⟩)
    · -- both parts have enough fuel with the larger amount
      have hfirst := hx.cause_eq (Nat.le_max_left n m) hn hdone
      have hsecond := (hf a).cause_eq (Nat.le_max_right n m) hm he
      refine ⟨he, max n m, ?_⟩
      show ((x (max n m) >>= f (max n m)) σ).cause = e
      rw [bind_done (Outcome.eq_done_of_cause hfirst), hsecond]
    · refine ⟨nofun, n, ?_⟩
      show ((x n >>= f n) σ).cause = .failed fault τ
      cases hrun : x n σ with
      | failed failure υ =>
          rw [hrun] at hn
          rw [bind_failed hrun]
          cases hn
          rfl
      | done b υ => rw [hrun] at hn; cases hn
      | exhausted => rw [hrun] at hn; cases hn

/-- A computation goes on from where the first part of it has ended. -/
theorem Settles.bind_iff {f : Nat → α → Eval β} {a : α} {τ : Store} {e : Outcome Fault β}
    (h : Settles x σ (.done a τ)) (hx : Steady x) (hf : ∀ a, Steady fun n => f n a) :
    Settles (fun n => x n >>= f n) σ e ↔ Settles (fun n => f n a) τ e := by
  rw [settles_bind_iff hx hf]
  constructor
  · rintro (⟨b, υ, hdone, hafter⟩ | ⟨fault, υ, hfailed, -⟩)
    · cases h.unique hx hdone
      exact hafter
    · cases h.unique hx hfailed
  · exact fun hafter => .inl ⟨a, τ, h, hafter⟩

end Settles

/-! ## Evaluations -/

variable {scope : Scope} {σ : Store}

/-- More fuel does not change how an evaluation ends. -/
theorem steady_evaluate (form : Value) (scope : Scope) :
    Steady fun n => evaluate n form scope :=
  fun n m hle => (evaluate_agree n form scope).refines.trans
    ((Direct.evaluate_refines hle form scope).trans (evaluate_agree m form scope).symm.refines)

/-- The evaluator with more fuel refines the one with less. -/
theorem evaluator_refines {n m : Nat} (hle : n ≤ m) :
    Evaluator.Refines (evaluate n) (evaluate m) :=
  fun form scope => steady_evaluate form scope n m hle

/-- A call ends as its direct evaluation does. -/
theorem settles_call_iff {callee : Value} {args : List Value} {span : Span}
    {c : Outcome Fault Value} :
    Settles (fun n => evaluate n (.call callee args span) scope) σ c ↔
      Settles (fun n => Direct.call n (evaluate n) scope callee args span) σ c := by
  rw [settles_succ_iff rfl]
  refine Settles.congr fun n => ?_
  rw [evaluate_eq_bind]
  exact call_agree callee args span

/-- The call that names a special form adds nothing to it but its own name in a
failure. -/
theorem agree_special (form : SpecialForm) (args : List Value) (span : Span) (n : Nat)
    (scope : Scope) :
    Agree (evaluate (n + 1) (.call (.symbol form.name) args span) scope)
      (Direct.special n (evaluate n) scope args form) := by
  have hp : primitive? (.symbol form.name) = some (.special form) :=
    Primitive.ofName?_name (.special form)
  rw [evaluate_eq_bind]
  refine (step_agree _).trans ?_
  rw [Direct.form, Direct.call, hp]
  exact Agree.within _ _ args span

/-- A special form ends as it does apart from the call that names it. -/
theorem settles_special_iff (form : SpecialForm) {args : List Value} {span : Span}
    {c : Outcome Fault Value} :
    Settles (fun n => evaluate n (.call (.symbol form.name) args span) scope) σ c ↔
      Settles (fun n => Direct.special n (evaluate n) scope args form) σ c := by
  rw [settles_succ_iff rfl]
  exact Settles.congr fun n => agree_special form args span n scope

/-- The value of forms that are evaluated in turn, each in a scope of its
own. -/
def sequence (forms : List Value) (scope : Scope) (n : Nat) : Eval Value :=
  Direct.sequenceOf (evaluate n) scope forms

private theorem steady_sequence (forms : List Value) (scope : Scope) :
    Steady (sequence forms scope) :=
  fun _ _ hle => (evaluator_refines hle).sequenceOf forms

/-- The form that evaluates others in turn. -/
def Value.sequenceForm (forms : List Value) (span : Span) : Value :=
  .call (.symbol SpecialForm.sequence.name) forms span

/-- It ends as the sequence does. -/
theorem settles_sequence_iff {forms : List Value} {span : Span} {c : Outcome Fault Value} :
    Settles (fun n => evaluate n (.sequenceForm forms span) scope) σ c ↔
      Settles (sequence forms scope) σ c :=
  settles_special_iff .sequence

/-- The first form of several, in a scope of its own, and then the others. -/
theorem settles_cons_iff {form : Value} {rest : List Value} (hrest : rest ≠ [])
    {c : Outcome Fault Value} :
    Settles (sequence (form :: rest) scope) σ c ↔
      (∃ v τ, Settles (fun n => evaluate n form (σ.openInner scope []).1)
        (σ.openInner scope []).2 (.done v τ) ∧ Settles (sequence rest scope) τ c) ∨
      ∃ fault τ, Settles (fun n => evaluate n form (σ.openInner scope []).1)
        (σ.openInner scope []).2 (.failed fault τ) ∧ c = .failed fault τ := by
  rw [← settles_bind_iff (steady_evaluate form _) fun _ => steady_sequence rest scope]
  cases rest with
  | nil => exact absurd rfl hrest
  | cons next more => rfl

end LazyLisp
