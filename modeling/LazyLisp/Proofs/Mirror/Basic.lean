import LazyLisp.Proofs.Discipline.Evaluation
import LazyLisp.Proofs.Mirror.Values

/-!
# Mirrors: two runs side by side

To compare an evaluation with one over another store, each scope is given an
image, and stores of the one run are linked with stores of the other.  The
second run evaluates the same form in the image of the scope, and it should do
what the first one does: end in a linked store with the image of the answer or
of the failure, or not end either.

A `Mirror` is one choice of images and links.  What may be assumed of the
first run is a `Discipline`; of the second run nothing needs to be known.  As
with disciplines, the laws of a mirror are about single changes of the store
and say nothing of an evaluation.

## Main results

* `Mirrors.bind` — computations that mirror each other compose, while the
  first run keeps its discipline up.
* `Mirrors.within` — naming the call goes along with its image.
-/

namespace LazyLisp

/-- Images of scopes, and stores of two runs that go together. -/
structure Mirror where
  image : Scope → Scope
  Linked : Store → Store → Prop

namespace Mirror

/-- The image of a value. -/
abbrev value (M : Mirror) (v : Value) : Value := v.mapScopes M.image

/-- The images of values. -/
abbrev values (M : Mirror) (vs : List Value) : List Value := vs.map M.value

@[simp] theorem values_cons (M : Mirror) (v : Value) (vs : List Value) :
    M.values (v :: vs) = M.value v :: M.values vs := rfl

/-- What a mirror needs, over stores that a discipline takes care of. -/
structure Lawful (D : Discipline) (M : Mirror) : Prop where
  /-- What a function keeps is a scope to evaluate in. -/
  closure : ∀ {w serial params body scope}, D.Data w (.closure serial params body scope) →
    D.Within w scope
  root : ∀ scope, (M.image scope).root = M.image scope.root
  lookup : ∀ {w σ τ scope name}, D.Keeps w σ → D.Code w scope (.symbol name) → M.Linked σ τ →
    τ.find? name (M.image scope) = (σ.find? name scope).map M.value
  openInner : ∀ {w σ τ scope} (b : Bindings), D.Keeps w σ → D.Within w scope → M.Linked σ τ →
    M.image (σ.openInner scope b).1 = (τ.openInner (M.image scope) (b.mapScopes M.image)).1 ∧
      M.Linked (σ.openInner scope b).2 (τ.openInner (M.image scope) (b.mapScopes M.image)).2
  define : ∀ {w σ τ scope} (name : String) (v : Value), D.Keeps w σ → D.Within w scope →
    M.Linked σ τ →
    M.Linked (σ.define scope.rootFrame name v)
      (τ.define (M.image scope).rootFrame name (M.value v))
  newClosure : ∀ {σ τ}, M.Linked σ τ → τ.closures = σ.closures ∧
    M.Linked { σ with closures := σ.closures + 1 } { τ with closures := τ.closures + 1 }
  print : ∀ {σ τ} (line : String), M.Linked σ τ → M.Linked (σ.print line) (τ.print line)

/-- Both runs end, in linked stores, and the second one with the image of the
answer or of the failure of the first; or neither ends. -/
inductive Ends (M : Mirror) {α : Type} (f : α → α) : Outcome Failure α → Outcome Failure α → Prop
    where
  | done (a : α) {σ τ : Store} (h : M.Linked σ τ) : Ends M f (.done a σ) (.done (f a) τ)
  | failed (e : Failure) {σ τ : Store} (h : M.Linked σ τ) :
      Ends M f (.failed e σ) (.failed (e.mapScopes M.image) τ)
  | exhausted : Ends M f .exhausted .exhausted

end Mirror

namespace Discipline

open Mirror (Ends)

/-- From a store in order and one that is linked with it, the second
computation does what the first one does. -/
def Mirrors (D : Discipline) (M : Mirror) (w : D.World) {α : Type} (f : α → α) (x y : Eval α) :
    Prop :=
  ∀ σ τ, D.Keeps w σ → M.Linked σ τ → Ends M f (x σ) (y τ)

/-- What the evaluator makes of code, it makes of the image of it. -/
def Follows (D : Discipline) (M : Mirror) (ev : Evaluator) : Prop :=
  ∀ w scope form, D.Code w scope form →
    Mirrors D M w M.value (ev form scope) (ev (M.value form) (M.image scope))

/-- All that is assumed when the runs of an evaluator are compared. -/
structure Reflects (D : Discipline) (M : Mirror) (ev : Evaluator) : Prop where
  lawful : D.Lawful
  mirror : M.Lawful D
  safe : D.Evaluates ev
  follows : D.Follows M ev

section Rules

variable {D : Discipline} {M : Mirror} {w : D.World} {α β : Type} {f : α → α} {h : β → β}
  {x y : Eval α}

theorem Mirrors.pure (a : α) : Mirrors D M w f (Pure.pure a) (Pure.pure (f a)) :=
  fun _ _ _ hlink => .done a hlink

/-- A failure is mirrored by the failure with mirrored values. -/
theorem Mirrors.fail (fault : Fault) :
    Mirrors D M w f (Eval.fail fault) (Eval.fail (fault.mapScopes M.image)) :=
  fun _ _ _ hlink => .failed (.of fault) hlink

/-- A wrong number of arguments is the same number of images. -/
theorem Mirrors.arity (p : Primitive) (args : List Value) :
    Mirrors D M w f (Eval.fail (.primitiveArity p args.length))
      (Eval.fail (.primitiveArity p (M.values args).length)) := by
  rw [List.length_map]
  exact .fail (.primitiveArity p args.length)

/-- Operations on values mirror each other if their answers do. -/
theorem Mirrors.ofExcept {x y : Except Fault α} (hxy : Rescopes M.image f x y) :
    Mirrors D M w f (Eval.ofExcept x) (Eval.ofExcept y) := by
  cases hxy with
  | ok a => exact .pure a
  | error fault => exact .fail fault

/-- The second run needs no discipline of its own: where the first one goes on,
it goes on from the image. -/
theorem Mirrors.bind {k k' : α → Eval β} {E : Failure → Prop} {Q : D.World → α → Prop}
    (hxy : Mirrors D M w f x y) (hx : Safe D E w x Q)
    (hk : ∀ w' a, D.Le w w' → Q w' a → Mirrors D M w' h (k a) (k' (f a))) :
    Mirrors D M w h (x >>= k) (y >>= k') := by
  intro σ τ hσ hlink
  have hends := hxy σ τ hσ hlink
  cases hrun : x σ with
  | done a υ =>
      obtain ⟨w', hle, hkeeps, hq⟩ := hx.done hσ hrun
      rw [hrun] at hends
      generalize hmirror : y τ = o at hends
      cases hends with
      | done _ hafter =>
          rw [Eval.bind_done hrun, Eval.bind_done hmirror]
          exact hk w' a hle hq υ _ hkeeps hafter
  | failed e υ =>
      rw [hrun] at hends
      generalize hmirror : y τ = o at hends
      cases hends with
      | failed _ hafter =>
          rw [Eval.bind_failed hrun, Eval.bind_failed hmirror]
          exact .failed e hafter
  | exhausted =>
      rw [hrun] at hends
      generalize hmirror : y τ = o at hends
      cases hends
      rw [Eval.bind_exhausted hrun, Eval.bind_exhausted hmirror]
      exact .exhausted

/-- A function is applied to what is given, on both sides. -/
theorem Mirrors.map {p p' : α → β} {E : Failure → Prop} {Q : D.World → α → Prop}
    (hxy : Mirrors D M w f x y) (hx : Safe D E w x Q) (hp : ∀ a, p' (f a) = h (p a)) :
    Mirrors D M w h (p <$> x) (p' <$> y) :=
  Mirrors.bind hxy hx fun w' a _ _ => by
    show Mirrors D M w' h (Pure.pure (p a)) (Pure.pure (p' (f a)))
    rw [hp]
    exact .pure (p a)

/-- A failure names the image of the call. -/
theorem Mirrors.within (hxy : Mirrors D M w f x y) (callee : Value) (args : List Value)
    (span : Span) :
    Mirrors D M w f (x.within callee args span)
      (y.within (M.value callee) (M.values args) span) := by
  intro σ τ hσ hlink
  have hends := hxy σ τ hσ hlink
  unfold Eval.within
  generalize x σ = o, y τ = o' at hends ⊢
  cases hends with
  | done a hafter => exact .done a hafter
  | failed e hafter =>
      show Ends M f (.failed _ _)
        (.failed ((e.mapScopes M.image).inCall (M.value callee) (M.values args) span) _)
      rw [← Failure.inCall_mapScopes]
      exact .failed _ hafter
  | exhausted => exact .exhausted

/-- Naming the call leaves what an answer is good for. -/
theorem Safe.within {E : Failure → Prop} {Q : D.World → α → Prop} (hx : Safe D E w x Q)
    (callee : Value) (args : List Value) (span : Span) :
    Safe D (fun _ => True) w (x.within callee args span) Q := by
  intro σ hσ
  have hx := hx σ hσ
  unfold Eval.within
  cases hrun : x σ with
  | done a τ =>
      rw [hrun] at hx
      exact hx
  | failed e τ =>
      rw [hrun] at hx
      exact ⟨trivial, hx.2⟩
  | exhausted => exact trivial

/-! ### The store -/

variable {scope : Scope}

/-- A name of the code stands for mirrored values. -/
theorem Mirrors.lookup (hM : M.Lawful D) {name : String} (hcode : D.Code w scope (.symbol name)) :
    Mirrors D M w M.value (Eval.lookup name scope) (Eval.lookup name (M.image scope)) := by
  intro σ τ hσ hlink
  unfold Eval.lookup
  rw [hM.lookup hσ hcode hlink]
  cases σ.find? name scope with
  | some v => exact .done v hlink
  | none => exact .failed (.of (.unresolved name)) hlink

/-- The image of a new scope is a new scope of the image. -/
theorem Mirrors.openInner (hM : M.Lawful D) (hscope : D.Within w scope) (b : Bindings) :
    Mirrors D M w M.image (Eval.openInner scope b)
      (Eval.openInner (M.image scope) (b.mapScopes M.image)) := by
  intro σ τ hσ hlink
  obtain ⟨himage, hafter⟩ := hM.openInner b hσ hscope hlink
  unfold Eval.openInner
  simp only
  rw [← himage]
  exact .done _ hafter

/-- A definition and its image bind mirrored values under one name. -/
theorem Mirrors.define (hM : M.Lawful D) (hscope : D.Within w scope) (name : String) (v : Value) :
    Mirrors D M w id (Eval.define scope.rootFrame name v)
      (Eval.define (M.image scope).rootFrame name (M.value v)) :=
  fun _ _ hσ hlink => .done () (hM.define name v hσ hscope hlink)

theorem Mirrors.print (hM : M.Lawful D) (line : String) :
    Mirrors D M w id (Eval.print line) (Eval.print line) :=
  fun _ _ _ hlink => .done () (hM.print line hlink)

theorem Mirrors.newClosure (hM : M.Lawful D) (params : List String) (body : Value)
    (scope : Scope) :
    Mirrors D M w M.value (Eval.newClosure params body scope)
      (Eval.newClosure params (M.value body) (M.image scope)) := by
  intro σ τ _ hlink
  obtain ⟨hserial, hafter⟩ := hM.newClosure hlink
  unfold Eval.newClosure
  rw [hserial] at hafter ⊢
  exact .done (Value.closure σ.closures params body scope) hafter

/-! ### Going on after an evaluation or in a new scope -/

variable {ev : Evaluator} {k k' : Value → Eval β} {l l' : Scope → Eval β}

/-- A computation that begins with an evaluation is mirrored if what follows is. -/
theorem Reflects.bind_evaluate (hR : D.Reflects M ev) {form : Value}
    (hcode : D.Code w scope form)
    (hk : ∀ u v, D.Le w u → D.Data u v → Mirrors D M u h (k v) (k' (M.value v))) :
    Mirrors D M w h (ev form scope >>= k) (ev (M.value form) (M.image scope) >>= k') :=
  Mirrors.bind (hR.follows w scope form hcode) (hR.safe.raised hcode) hk

/-- A computation that begins with a new scope is mirrored if what follows is. -/
theorem Reflects.bind_openInner (hR : D.Reflects M ev) (hscope : D.Within w scope)
    (hl : ∀ u inner, D.Le w u → (∀ form, D.Code w scope form → D.Code u inner form) →
      Mirrors D M u h (l inner) (l' (M.image inner))) :
    Mirrors D M w h (Eval.openInner scope [] >>= l) (Eval.openInner (M.image scope) [] >>= l') :=
  Mirrors.bind (E := D.Raised) (.openInner hR.mirror hscope []) (.openInner hR.lawful hscope) hl

end Rules

end Discipline

end LazyLisp
