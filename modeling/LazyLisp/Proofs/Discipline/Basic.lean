import LazyLisp.Evaluation.Evaluate

/-!
# Disciplines: what an evaluation keeps up

Many properties of the language have one shape: something is demanded of
every value in the store, and an evaluation that starts from such a store,
with a form that meets a demand of its own, ends in such a store with such a
value.  A `Discipline` is one choice of these demands, and `Lawful` lists
what has to hold of them: one law for every way in which the evaluator opens
a scope, binds a name, builds a value or takes a form apart.  Nothing in the
laws mentions an evaluation, so a new property needs no new induction.

Demands are relative to a *world*, which stands for what is known of the
store and only ever grows: a value that was stored once may rely on the
frames of that time.

`Safe` is the triple that the induction carries through the evaluator.  An
evaluation that does not end satisfies every triple; one that fails has to
leave the store in order as well.

## Main results

* `Safe.bind` — computations that keep a discipline up compose.
* `Safe.inCall` — naming the call turns the faults of a primitive into
  failures that the discipline allows.
-/

namespace LazyLisp

/-! ## Faults of primitives -/

/-- Whether the fault is raised by a primitive or a call about its own
arguments.  Every fault is, except that a name is bound nowhere. -/
def Fault.isLocal : Fault → Bool
  | .unresolved _ => false
  | _ => true

/-- A result without a computation meets a demand, or it is a fault about
arguments. -/
def Answers {α : Type} (x : Except Fault α) (Q : α → Prop) : Prop :=
  match x with
  | .ok a => Q a
  | .error fault => fault.isLocal = true

/-- Two operations on values, one after the other. -/
theorem Answers.bind {α β : Type} {x : Except Fault α} {f : α → Except Fault β}
    {Q : α → Prop} {R : β → Prop} (hx : Answers x Q) (hf : ∀ a, Q a → Answers (f a) R) :
    Answers (x >>= f) R := by
  cases x with
  | ok a => exact hf a hx
  | error fault => exact hx

/-- The value is no container and no code: it can stand anywhere. -/
def Value.isAtomic : Value → Bool
  | .number _ | .boolean _ | .string _ | .terminal | .nil | .symbol _ => true
  | _ => false

/-- The primitives that evaluate all their arguments, each in the scope of
the call or in a fresh one inside it. -/
def Primitive.evaluatesAll : Primitive → Bool
  | .operator _ => true
  | .special .lazyPair | .special .conditional | .special .sequence => true
  | .special _ => false

/-- The call that stands for the rest of a range: the one call that no program
spells.  It cannot fail. -/
def Operator.rangeCall (low high : Int64) : Value :=
  .call (.symbol Operator.range.name) [.integer low, .integer high] .nowhere

/-! ## Disciplines -/

/-- What is demanded of stores, values, forms and failures. -/
structure Discipline where
  /-- What may be known of a store. -/
  World : Type
  /-- The second world knows at least as much as the first. -/
  Le : World → World → Prop
  /-- The store is in order, and as the world says. -/
  Keeps : World → Store → Prop
  /-- Forms may be evaluated in the scope. -/
  Within : World → Scope → Prop
  /-- The value may be the result of an evaluation and be stored. -/
  Data : World → Value → Prop
  /-- The form may be evaluated in the scope. -/
  Code : World → Scope → Value → Prop
  /-- An evaluation may end with the failure. -/
  Allowed : Failure → Prop

namespace Discipline

/-- Failures inside a call that has not been named yet. -/
def Raised (D : Discipline) (f : Failure) : Prop :=
  D.Allowed f ∨ ∃ fault : Fault, fault.isLocal = true ∧ f = .of fault

/-- What is known stays known. -/
structure Grows (D : Discipline) : Prop where
  le_refl : ∀ w, D.Le w w
  le_trans : ∀ {u v w}, D.Le u v → D.Le v w → D.Le u w
  within_mono : ∀ {u w scope}, D.Le u w → D.Within u scope → D.Within w scope
  data_mono : ∀ {u w v}, D.Le u w → D.Data u v → D.Data w v
  code_mono : ∀ {u w scope form}, D.Le u w → D.Code u scope form → D.Code w scope form

/-- What the evaluator does to the store. -/
structure StoreLaws (D : Discipline) : Prop where
  /-- Only the frames count. -/
  keeps_frames : ∀ {w σ τ}, D.Keeps w σ → τ.frames = σ.frames → D.Keeps w τ
  lookup : ∀ {w σ scope name v}, D.Keeps w σ → D.Code w scope (.symbol name) →
    σ.find? name scope = some v → D.Data w v
  unbound : ∀ {w σ scope name}, D.Keeps w σ → D.Code w scope (.symbol name) →
    σ.find? name scope = none → D.Allowed (.of (.unresolved name))
  openInner : ∀ {w σ scope}, D.Keeps w σ → D.Within w scope →
    ∃ w', D.Le w w' ∧ D.Keeps w' (σ.openInner scope []).2 ∧
      ∀ form, D.Code w scope form → D.Code w' (σ.openInner scope []).1 form
  bindParams : ∀ {w σ serial params body scope args}, D.Keeps w σ →
    D.Data w (.closure serial params body scope) → (∀ v ∈ args, D.Data w v) →
    params.length = args.length →
    ∃ w', D.Le w w' ∧ D.Keeps w' (σ.openInner scope (.ofParams params args)).2 ∧
      D.Code w' (σ.openInner scope (.ofParams params args)).1 body
  define : ∀ {w σ scope v} (name : String), D.Keeps w σ → D.Within w scope → D.Data w v →
    ∃ w', D.Le w w' ∧ D.Keeps w' (σ.define scope.rootFrame name v)

/-- What may be built from values, and what their parts are. -/
structure DataLaws (D : Discipline) : Prop where
  atomic : ∀ {w v}, v.isAtomic = true → D.Data w v
  items : ∀ {w cells v}, D.Data w (.pair cells) → v ∈ cells.toList → D.Data w v
  tail : ∀ {w head cells}, D.Data w (.pair (.cell head cells)) → D.Data w (.pair cells)
  cell : ∀ {w head cells}, D.Data w head → D.Data w (.pair cells) → cells.isEmpty = false →
    D.Data w (.pair (.cell head cells))
  ofList : ∀ {w items}, (∀ v ∈ items, D.Data w v) → D.Data w (.pair (.ofList items))
  lastCell : ∀ {w head}, D.Data w (.lastCell head) ↔ D.Data w head
  lazyCell : ∀ {w head rest scope}, D.Data w (.lazyCell head rest scope) →
    D.Data w head ∧ D.Code w scope rest
  pending : ∀ {w head rest scope}, D.Data w head → rest.isPending = true →
    D.Code w scope rest → D.Data w (.lazyCell head rest scope)
  ready : ∀ {w head rest scope}, D.Data w head → D.Data w rest → rest.kind = .lazySequence →
    D.Within w scope → D.Data w (.lazyCell head rest scope.root)

/-- What the parts of a form are, and what an evaluation makes of them. -/
structure CodeLaws (D : Discipline) : Prop where
  code_within : ∀ {w scope form}, D.Code w scope form → D.Within w scope
  code_self : ∀ {w scope v}, D.Code w scope v → v.isPending = false → D.Data w v
  call_args : ∀ {w scope callee args span p form}, D.Code w scope (.call callee args span) →
    Evaluation.primitive? callee = some p → p.evaluatesAll = true → form ∈ args →
    D.Code w scope form
  call_other : ∀ {w scope callee args span}, D.Code w scope (.call callee args span) →
    Evaluation.primitive? callee = none →
    D.Code w scope callee ∧ ∀ form ∈ args, D.Code w scope form
  call_define : ∀ {w scope callee target form span},
    D.Code w scope (.call callee [target, form] span) →
    Evaluation.primitive? callee = some (.special .define) → D.Code w scope form
  call_apply : ∀ {w scope callee form sequence span},
    D.Code w scope (.call callee [form, sequence] span) →
    Evaluation.primitive? callee = some (.special .apply) →
    D.Code w scope sequence ∧ (Evaluation.primitive? form = none → D.Code w scope form)
  call_function : ∀ {w scope callee params body span},
    D.Code w scope (.call callee [params, body] span) →
    Evaluation.primitive? callee = some (.special .function) →
    (params.kind = .symbol → D.Code w scope params) ∧
      ∀ serial names, (params.kind ≠ .symbol → readParams params = .ok names) →
        D.Data w (.closure serial names body scope)
  call_template : ∀ {w scope callee params body span},
    D.Code w scope (.call callee [params, body] span) →
    Evaluation.primitive? callee = some (.special .template) →
    (params.kind = .symbol → D.Code w scope params) ∧ ∀ names, D.Data w (.template names body)
  call_expand : ∀ {w scope callee args span params body}, D.Code w scope (.call callee args span) →
    Evaluation.primitive? callee = none → D.Data w (.template params body) →
    params.length = args.length →
    D.Code w scope (Template.substitute (.ofParams params args) span body)
  range_call : ∀ {w scope} (low high : Int64), D.Within w scope →
    D.Code w scope.root
      (.call (.symbol Operator.range.name) [.integer low, .integer high] .nowhere)
  inCall : ∀ {w scope callee args span shown f}, D.Code w scope (.call callee args span) →
    (∀ low high, Value.call callee args span ≠ Operator.rangeCall low high) →
    D.Raised f → D.Allowed (f.inCall callee shown span)

/-- All the laws that the evaluator needs. -/
structure Lawful (D : Discipline) : Prop extends
  Grows D, StoreLaws D, DataLaws D, CodeLaws D

/-! ## The triple -/

section Triple

variable {D : Discipline} {α β : Type}

/-- From a store in order, the computation leads to a store in order that
knows more, with an answer as wanted or with a failure of the given sort. -/
def Safe (D : Discipline) (E : Failure → Prop) (w : D.World) (x : Eval α)
    (Q : D.World → α → Prop) : Prop :=
  ∀ σ, D.Keeps w σ →
    match x σ with
    | .done a τ => ∃ w', D.Le w w' ∧ D.Keeps w' τ ∧ Q w' a
    | .failed f τ => E f ∧ ∃ w', D.Le w w' ∧ D.Keeps w' τ
    | .exhausted => True

/-- Every form that the discipline takes for code evaluates to data. -/
def Evaluates (D : Discipline) (ev : Evaluator) : Prop :=
  ∀ w scope form, D.Code w scope form →
    Safe D D.Allowed w (ev form scope) fun w' v => D.Data w' v

/-! ### What a triple says of a run -/

/-- What a safe computation gives, in a later world that its store keeps. -/
theorem Safe.done {E : Failure → Prop} {w : D.World} {x : Eval α} {Q : D.World → α → Prop}
    (hx : Safe D E w x Q) {σ τ : Store} {a : α} (hσ : D.Keeps w σ) (h : x σ = .done a τ) :
    ∃ w', D.Le w w' ∧ D.Keeps w' τ ∧ Q w' a := by
  have hx := hx σ hσ
  rw [h] at hx
  exact hx

/-- Why a safe computation may fail; the store is kept in that case too. -/
theorem Safe.failed {E : Failure → Prop} {w : D.World} {x : Eval α} {Q : D.World → α → Prop}
    (hx : Safe D E w x Q) {σ τ : Store} {f : Failure} (hσ : D.Keeps w σ)
    (h : x σ = .failed f τ) : E f ∧ ∃ w', D.Le w w' ∧ D.Keeps w' τ := by
  have hx := hx σ hσ
  rw [h] at hx
  exact hx

/-! ### Rules -/

/-- A value that meets the demand is given safely. -/
theorem Safe.pure {E : Failure → Prop} {w : D.World} {a : α} {Q : D.World → α → Prop}
    (hD : D.Grows) (h : Q w a) : Safe D E w (Pure.pure a) Q :=
  fun _ hσ => ⟨w, hD.le_refl w, hσ, h⟩

/-- The rule for two computations: the second one starts in the world that the
first one leads to. -/
theorem Safe.bind {E : Failure → Prop} {w : D.World} {x : Eval α} {f : α → Eval β}
    {Q : D.World → α → Prop} {R : D.World → β → Prop} (hD : D.Grows)
    (hx : Safe D E w x Q) (hf : ∀ w' a, D.Le w w' → Q w' a → Safe D E w' (f a) R) :
    Safe D E w (x >>= f) R := by
  intro σ hσ
  have hx := hx σ hσ
  cases h : x σ with
  | exhausted =>
      rw [Eval.bind_exhausted h]
      exact trivial
  | failed e τ =>
      rw [h] at hx
      rw [Eval.bind_failed h]
      exact hx
  | done a τ =>
      rw [h] at hx
      obtain ⟨w', hle, hτ, hq⟩ := hx
      have hf := hf w' a hle hq τ hτ
      rw [Eval.bind_done h]
      cases h' : f a τ with
      | exhausted => exact trivial
      | failed e υ =>
          rw [h'] at hf
          obtain ⟨he, w'', hle', hυ⟩ := hf
          exact ⟨he, w'', hD.le_trans hle hle', hυ⟩
      | done b υ =>
          rw [h'] at hf
          obtain ⟨w'', hle', hυ, hr⟩ := hf
          exact ⟨w'', hD.le_trans hle hle', hυ, hr⟩

/-- A triple with a weaker demand on the answer and on the failure. -/
theorem Safe.mono {E F : Failure → Prop} {w : D.World} {x : Eval α}
    {Q R : D.World → α → Prop} (hx : Safe D E w x Q) (he : ∀ f, E f → F f)
    (h : ∀ w' a, D.Le w w' → Q w' a → R w' a) : Safe D F w x R := by
  intro σ hσ
  have hx := hx σ hσ
  cases h' : x σ with
  | exhausted => exact trivial
  | failed e τ =>
      rw [h'] at hx
      exact ⟨he e hx.1, hx.2⟩
  | done a τ =>
      rw [h'] at hx
      obtain ⟨w', hle, hτ, hq⟩ := hx
      exact ⟨w', hle, hτ, h w' a hle hq⟩

/-- A function is applied to what is given, in the same world. -/
theorem Safe.map {E : Failure → Prop} {w : D.World} {x : Eval α} {f : α → β}
    {Q : D.World → α → Prop} {R : D.World → β → Prop} (hD : D.Grows) (hx : Safe D E w x Q)
    (h : ∀ w' a, D.Le w w' → Q w' a → R w' (f a)) : Safe D E w (f <$> x) R :=
  Safe.bind hD hx fun w' a hle hq => Safe.pure hD (h w' a hle hq)

/-- Any fault may be raised inside a call but that of a name that is bound
nowhere. -/
theorem Safe.fail {w : D.World} {fault : Fault} {Q : D.World → α → Prop} (hD : D.Grows)
    (h : fault.isLocal = true) : Safe D D.Raised w (Eval.fail fault) Q :=
  fun _ hσ => ⟨.inr ⟨fault, h, rfl⟩, w, hD.le_refl w, hσ⟩

/-- An operation on values is safe if its answers are. -/
theorem Safe.ofExcept {w : D.World} {x : Except Fault α} {P : α → Prop}
    {Q : D.World → α → Prop} (hD : D.Grows) (hx : Answers x P) (h : ∀ a, P a → Q w a) :
    Safe D D.Raised w (Eval.ofExcept x) Q := by
  cases x with
  | ok a => exact Safe.pure hD (h a hx)
  | error fault => exact Safe.fail hD hx

/-- An evaluation inside a primitive. -/
theorem Evaluates.raised {ev : Evaluator} (hev : D.Evaluates ev) {w : D.World}
    {scope : Scope} {form : Value} (h : D.Code w scope form) :
    Safe D D.Raised w (ev form scope) fun w' v => D.Data w' v :=
  (hev w scope form h).mono (fun _ => .inl) fun _ _ _ hv => hv

/-- Once the call is named, what a primitive raises is a failure of the
call. -/
theorem Safe.inCall {w : D.World} {x : Eval α} {Q : D.World → α → Prop} (hD : D.Lawful)
    {scope : Scope} {callee : Value} {args shown : List Value} {span : Span} {u : D.World}
    (hcall : D.Code u scope (.call callee args span))
    (hspelled : ∀ low high, Value.call callee args span ≠ Operator.rangeCall low high)
    (hx : Safe D D.Raised w x Q) : Safe D D.Allowed w (x.within callee shown span) Q := by
  intro σ hσ
  have hx := hx σ hσ
  unfold Eval.within
  cases h : x σ with
  | exhausted => exact trivial
  | failed e τ =>
      rw [h] at hx
      exact ⟨hD.inCall hcall hspelled hx.1, hx.2⟩
  | done a τ =>
      rw [h] at hx
      exact hx

/-! ## The store -/

/-- All code of a scope is code of a scope opened inside it. -/
theorem Safe.openInner (hD : D.Lawful) {E : Failure → Prop} {w : D.World} {scope : Scope}
    (h : D.Within w scope) :
    Safe D E w (Eval.openInner scope []) fun w' inner =>
      ∀ form, D.Code w scope form → D.Code w' inner form := by
  intro σ hσ
  obtain ⟨w', hle, hk, hcode⟩ := hD.openInner hσ h
  exact ⟨w', hle, hk, hcode⟩

/-- Data may be bound in the global frame of a scope that is within the world. -/
theorem Safe.define (hD : D.Lawful) {E : Failure → Prop} {w : D.World} {scope : Scope}
    {v : Value} (h : D.Within w scope) (hv : D.Data w v) (name : String) :
    Safe D E w (Eval.define scope.rootFrame name v) fun _ _ => True := by
  intro σ hσ
  obtain ⟨w', hle, hk⟩ := hD.define name hσ h hv
  exact ⟨w', hle, hk, trivial⟩

theorem Safe.print (hD : D.Lawful) {E : Failure → Prop} {w : D.World} (line : String) :
    Safe D E w (Eval.print line) fun _ _ => True :=
  fun _ hσ => ⟨w, hD.le_refl w, hD.keeps_frames hσ rfl, trivial⟩

/-- A new function is data, whatever number it is given. -/
theorem Safe.newClosure (hD : D.Lawful) {E : Failure → Prop} {w : D.World}
    {params : List String} {body : Value} {scope : Scope}
    (h : ∀ serial, D.Data w (.closure serial params body scope)) :
    Safe D E w (Eval.newClosure params body scope) fun w' v => D.Data w' v :=
  fun σ hσ => ⟨w, hD.le_refl w, hD.keeps_frames hσ rfl, h σ.closures⟩

/-- What a symbol of the code stands for is data, and if it stands for nothing,
that failure is allowed. -/
theorem Safe.lookup (hD : D.Lawful) {w : D.World} {scope : Scope} {name : String}
    (h : D.Code w scope (.symbol name)) :
    Safe D D.Allowed w (Eval.lookup name scope) fun w' v => D.Data w' v := by
  intro σ hσ
  unfold Eval.lookup
  cases hfind : σ.find? name scope with
  | none => exact ⟨hD.unbound hσ h hfind, w, hD.le_refl w, hσ⟩
  | some v => exact ⟨w, hD.le_refl w, hσ, hD.lookup hσ h hfind⟩

end Triple

end Discipline

end LazyLisp
