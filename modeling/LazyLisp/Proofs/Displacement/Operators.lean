import LazyLisp.Proofs.Displacement.Values
import LazyLisp.Proofs.Mirror.Operators

/-!
# Displaced runs of operators

Two stores are linked by a displacement if the second one has the frames of
the first one where these are moved to, with displaced values bound in them.
What else it has, no displaced scope leads to.  A computation over the second
store then tracks one over the first: it comes to a displaced answer in a
linked store, or both fail, or neither ends.  Failures are not compared any
further, and neither is what was printed.

No care has to be taken of what the values are, as it has to where scopes are
given images: a displacement moves any scope at all.

## Main results

* `Linked.find?` — names mean the same, up to the displacement.
* `Tracks.bind` — computations that track each other compose.
* `Tracks.overList` — functions over lists.
* `Tracks.run` — every operator.
-/

namespace LazyLisp

open Value (Displaced)

namespace Displacement

/-- The second store has all frames of the first one, moved. -/
structure Linked (d : Displacement) (σ τ : Store) : Prop where
  start_le : d.start ≤ σ.frames.size
  size_eq : τ.frames.size = σ.frames.size + d.offset
  bindings : ∀ f, (σ.bindings f).Displaced d (τ.bindings (d.frame f))

/-- Both computations end with related results in linked stores, or both fail,
or neither ends. -/
inductive Ends (d : Displacement) {α β : Type} (R : α → β → Prop) :
    Outcome Failure α → Outcome Failure β → Prop where
  | done {a : α} {b : β} {σ τ : Store} (h : R a b) (hlink : d.Linked σ τ) :
      Ends d R (.done a σ) (.done b τ)
  | failed (e e' : Failure) (σ τ : Store) : Ends d R (.failed e σ) (.failed e' τ)
  | exhausted : Ends d R .exhausted .exhausted

/-- From linked stores both computations end alike. -/
def Tracks (d : Displacement) {α β : Type} (R : α → β → Prop) (x : Eval α) (y : Eval β) : Prop :=
  ∀ σ τ, d.Linked σ τ → d.Ends R (x σ) (y τ)

/-- What the evaluator makes of a form, it makes of a displaced copy of it in
the scope that is moved. -/
def Follows (d : Displacement) (ev : Evaluator) : Prop :=
  ∀ {form form' : Value}, Displaced d form form' → ∀ scope,
    d.Tracks (Displaced d) (ev form scope) (ev form' (d.scope scope))

/-! ## Linked stores -/

namespace Linked

variable {d : Displacement} {σ τ : Store}

/-- The frames that are opened next correspond. -/
theorem frame_size (h : d.Linked σ τ) : d.frame σ.frames.size = τ.frames.size :=
  (frame_of_le h.start_le).trans h.size_eq.symm

private theorem frame_lt_iff (h : d.Linked σ τ) {f : FrameId} :
    d.frame f < τ.frames.size ↔ f < σ.frames.size := by
  have hstart := h.start_le
  have hsize := h.size_eq
  grind [frame]

/-- Only frames are compared. -/
theorem congr {σ' τ' : Store} (h : d.Linked σ τ) (hσ : σ'.frames = σ.frames)
    (hτ : τ'.frames = τ.frames) : d.Linked σ' τ' where
  start_le := by rw [hσ]; exact h.start_le
  size_eq := by rw [hσ, hτ]; exact h.size_eq
  bindings f := by
    rw [Store.bindings_congr hσ, Store.bindings_congr hτ]
    exact h.bindings f

/-- A name is looked up from the inside out in both scopes. -/
theorem find? (h : d.Linked σ τ) (name : String) (scope : Scope) :
    Option.Rel (Displaced d) (σ.find? name scope) (τ.find? name (d.scope scope)) := by
  induction scope with
  | global f => exact (h.bindings f).find? name
  | inner f outer ih =>
      have hframe := (h.bindings f).find? name
      rw [Displacement.scope, Store.find?_inner, Store.find?_inner]
      generalize (σ.bindings f).find? name = o, (τ.bindings (d.frame f)).find? name = o' at hframe
      cases hframe with
      | some hv => exact .some hv
      | none => exact ih

private theorem addFrame (h : d.Linked σ τ) {b b' : Bindings} (hb : b.Displaced d b') :
    d.Linked (σ.addFrame b) (τ.addFrame b') where
  start_le := by
    rw [Store.size_addFrame]
    exact Nat.le_succ_of_le h.start_le
  size_eq := by
    rw [Store.size_addFrame, Store.size_addFrame, h.size_eq, Nat.add_right_comm]
  bindings f := by
    rw [Store.bindings_addFrame, Store.bindings_addFrame, ← h.frame_size]
    -- the new frame is moved to the new one of the other store, and no other frame is
    by_cases hf : f = σ.frames.size
    · rw [if_pos hf, if_pos (congrArg d.frame hf)]
      exact hb
    · rw [if_neg hf, if_neg (frame_inj.not.mpr hf)]
      exact h.bindings f

private theorem define (h : d.Linked σ τ) (f : FrameId) (name : String) {v v' : Value}
    (hv : Displaced d v v') :
    d.Linked (σ.define f name v) (τ.define (d.frame f) name v') where
  start_le := by
    rw [Store.size_define]
    exact h.start_le
  size_eq := by
    rw [Store.size_define, Store.size_define]
    exact h.size_eq
  bindings g := by
    rw [Store.bindings_define, Store.bindings_define]
    by_cases hg : f = g ∧ g < σ.frames.size
    · rw [if_pos hg, if_pos ⟨congrArg d.frame hg.1, h.frame_lt_iff.mpr hg.2⟩]
      exact (h.bindings g).put name hv
    · rw [if_neg hg, if_neg fun hmoved => hg ⟨frame_inj.mp hmoved.1, h.frame_lt_iff.mp hmoved.2⟩]
      exact h.bindings g

end Linked

/-- Where the second computation has an answer, the first one has a related one. -/
theorem Ends.done_left {d : Displacement} {α β : Type} {R : α → β → Prop}
    {x : Outcome Failure α} {b : β} {τ : Store} (h : d.Ends R x (.done b τ)) :
    ∃ a σ, x = .done a σ ∧ R a b := by
  cases h with
  | done hab _ => exact ⟨_, _, rfl, hab⟩

/-! ## Rules -/

namespace Tracks

section Rules

variable {d : Displacement} {α β γ δ : Type} {R : α → β → Prop} {S : γ → δ → Prop}
  {x : Eval α} {y : Eval β}

theorem pure {a : α} {b : β} (h : R a b) : d.Tracks R (Pure.pure a) (Pure.pure b) :=
  fun _ _ hlink => .done h hlink

/-- Failures end both computations; which fault it is does not matter. -/
theorem fail (fault fault' : Fault) : d.Tracks R (Eval.fail fault) (Eval.fail fault') :=
  fun _ _ _ => .failed ..

theorem outOfFuel : d.Tracks R (fun _ => .exhausted) (fun _ => .exhausted) :=
  fun _ _ _ => .exhausted

/-- Operations on values track each other if their answers agree. -/
theorem ofExcept {x : Except Fault α} {y : Except Fault β} (h : Agree R x y) :
    d.Tracks R (Eval.ofExcept x) (Eval.ofExcept y) := by
  cases h with
  | ok hab => exact .pure hab
  | error fault fault' => exact .fail fault fault'

/-- The rule for two computations, one after the other. -/
theorem bind {k : α → Eval γ} {l : β → Eval δ} (h : d.Tracks R x y)
    (hk : ∀ a b, R a b → d.Tracks S (k a) (l b)) : d.Tracks S (x >>= k) (y >>= l) := by
  intro σ τ hlink
  have hends := h σ τ hlink
  cases hx : x σ with
  | done a σ' =>
      rw [hx] at hends
      cases hy : y τ with
      | done b τ' =>
          rw [hy] at hends
          rw [Eval.bind_done hx, Eval.bind_done hy]
          cases hends with
          | done hab hafter => exact hk a b hab σ' τ' hafter
      | _ => rw [hy] at hends; cases hends
  | failed e σ' =>
      rw [hx] at hends
      cases hy : y τ with
      | failed e' τ' =>
          rw [Eval.bind_failed hx, Eval.bind_failed hy]
          exact .failed ..
      | _ => rw [hy] at hends; cases hends
  | exhausted =>
      rw [hx] at hends
      cases hy : y τ with
      | exhausted =>
          rw [Eval.bind_exhausted hx, Eval.bind_exhausted hy]
          exact .exhausted
      | _ => rw [hy] at hends; cases hends

theorem map {p : α → γ} {q : β → δ} (h : d.Tracks R x y) (hpq : ∀ a b, R a b → S (p a) (q b)) :
    d.Tracks S (p <$> x) (q <$> y) :=
  h.bind fun a b hab => .pure (hpq a b hab)

/-- Whichever call a failure names, it is a failure. -/
theorem within (h : d.Tracks R x y) {callee callee' : Value} {args args' : List Value}
    {span span' : Span} :
    d.Tracks R (x.within callee args span) (y.within callee' args' span') := by
  intro σ τ hlink
  have hends := h σ τ hlink
  unfold Eval.within
  generalize x σ = o, y τ = o' at hends ⊢
  cases hends with
  | done hab hafter => exact .done hab hafter
  | failed e e' σ' τ' => exact .failed ..
  | exhausted => exact .exhausted

/-! ### The store -/

/-- The same name stands for displaced values in a scope and in the displaced one. -/
theorem lookup (name : String) (scope : Scope) :
    d.Tracks (Displaced d) (Eval.lookup name scope) (Eval.lookup name (d.scope scope)) := by
  intro σ τ hlink
  have hfind := hlink.find? name scope
  unfold Eval.lookup
  generalize σ.find? name scope = o, τ.find? name (d.scope scope) = o' at hfind ⊢
  cases hfind with
  | some hv => exact .done hv hlink
  | none => exact .failed ..

/-- Scopes opened at the same time correspond. -/
theorem openInner (scope : Scope) {b b' : Bindings} (hb : b.Displaced d b') :
    d.Tracks (fun s s' => s' = d.scope s) (Eval.openInner scope b)
      (Eval.openInner (d.scope scope) b') := by
  intro σ τ hlink
  refine .done ?_ (hlink.addFrame hb)
  rw [Store.openInner, Store.openInner, Displacement.scope, hlink.frame_size]

/-- A definition puts displaced values under the same name of corresponding
frames. -/
theorem define (f : FrameId) (name : String) {v v' : Value} (hv : Displaced d v v') :
    d.Tracks Eq (Eval.define f name v) (Eval.define (d.frame f) name v') :=
  fun _ _ hlink => .done rfl (hlink.define f name hv)

private theorem print (line line' : String) : d.Tracks Eq (Eval.print line) (Eval.print line') :=
  fun _ _ hlink => .done rfl (hlink.congr rfl rfl)

/-- The numbers of the two functions may differ. -/
theorem newClosure (params : List String) {body body' : Value} (hbody : Displaced d body body')
    (scope : Scope) :
    d.Tracks (Displaced d) (Eval.newClosure params body scope)
      (Eval.newClosure params body' (d.scope scope)) :=
  fun _ _ hlink => .done (.closure hbody) (hlink.congr rfl rfl)

end Rules

end Tracks

end Displacement

/-! ## Walking a sequence -/

/-- The same place in a displaced copy of a sequence. -/
inductive Cursor.Displaced (d : Displacement) : Cursor → Cursor → Prop where
  | before {v v' : Value} (h : v.Displaced d v') : Displaced d (.before v) (.before v')
  | pending {rest rest' : Value} {scope : Scope} (h : rest.Displaced d rest') :
      Displaced d (.pending rest scope) (.pending rest' (d.scope scope))

/-- An element and the place after it, or the end, in both sequences. -/
def Cursor.Found (d : Displacement) : Option (Value × Cursor) → Option (Value × Cursor) → Prop :=
  Option.Rel fun r r' => r.1.Displaced d r'.1 ∧ r.2.Displaced d r'.2

namespace Displacement.Tracks

variable {d : Displacement} {ev : Evaluator} {scope : Scope} {args args' : List Value}

section Walking

/-- Displaced rests are forced to displaced values. -/
theorem forceRest (hev : d.Follows ev) {rest rest' : Value} (hrest : Displaced d rest rest') :
    d.Tracks (Displaced d) (forceRest ev rest scope)
      (LazyLisp.forceRest ev rest' (d.scope scope)) := by
  refine (hev hrest scope).bind fun v v' hv => ?_
  rw [hv.isSequence_eq]
  split
  · exact .pure hv
  · exact .fail _ _

private theorem enter {v v' : Value} (hv : Displaced d v v') :
    d.Tracks (Cursor.Found d) (Cursor.enter v) (Cursor.enter v') := by
  cases hv with
  | pair hcells =>
      cases hcells with
      | empty => exact .pure .none
      | last hv => exact .pure (.some ⟨hv, .before .terminal⟩)
      | cell hv hmore => exact .pure (.some ⟨hv, .before (.pair hmore)⟩)
  | terminal => exact .pure .none
  | lastCell hhead => exact .pure (.some ⟨hhead, .before .terminal⟩)
  | lazyCell hhead hrest => exact .pure (.some ⟨hhead, .pending hrest⟩)
  | _ => exact .fail _ _

/-- Displaced sequences have displaced elements. -/
theorem next (hev : d.Follows ev) {c c' : Cursor} (hc : c.Displaced d c') :
    d.Tracks (Cursor.Found d) (Cursor.next ev c) (Cursor.next ev c') := by
  cases hc with
  | before hv => exact enter hv
  | pending hrest => exact (forceRest hev hrest).bind fun _ _ hv => enter hv

/-- What was gathered, the latest first, is put in order. -/
theorem reversed {vs vs' : List Value} (h : List.Forall₂ (Displaced d) vs vs') :
    d.Tracks (List.Forall₂ (Displaced d)) (Pure.pure vs.reverse) (Pure.pure vs'.reverse) :=
  .pure (List.forall₂_reverse_iff.mpr h)

private theorem takeFrom (hev : d.Follows ev) (count : Nat) {c c' : Cursor} (hc : c.Displaced d c')
    {taken taken' : List Value} (htaken : List.Forall₂ (Displaced d) taken taken') :
    d.Tracks (List.Forall₂ (Displaced d)) (Cursor.takeFrom ev count c taken)
      (Cursor.takeFrom ev count c' taken') := by
  induction count generalizing c c' taken taken' with
  | zero => exact reversed htaken
  | succ count ih =>
      rw [Cursor.takeFrom_succ, Cursor.takeFrom_succ]
      refine (next hev hc).bind fun found found' hfound => ?_
      cases hfound with
      | none => exact reversed htaken
      | some hr => exact ih hr.2 (.cons hr.1 htaken)

theorem takeAll (hev : d.Follows ev) (fuel : Nat) {c c' : Cursor} (hc : c.Displaced d c')
    {taken taken' : List Value} (htaken : List.Forall₂ (Displaced d) taken taken') :
    d.Tracks (List.Forall₂ (Displaced d)) (Cursor.takeAll ev fuel c taken)
      (Cursor.takeAll ev fuel c' taken') := by
  induction fuel generalizing c c' taken taken' with
  | zero => exact outOfFuel
  | succ fuel ih =>
      rw [Cursor.takeAll_succ, Cursor.takeAll_succ]
      refine (next hev hc).bind fun found found' hfound => ?_
      cases hfound with
      | none => exact reversed htaken
      | some hr => exact ih hr.2 (.cons hr.1 htaken)

end Walking

/-! ## Calling functions -/

theorem bindParams (params : List String) (captured : Scope)
    (hargs : List.Forall₂ (Displaced d) args args') :
    d.Tracks (fun s s' => s' = d.scope s) (bindParams params captured args)
      (LazyLisp.bindParams params (d.scope captured) args') := by
  unfold LazyLisp.bindParams
  rw [hargs.length_eq]
  split
  · exact openInner captured (.ofParams hargs params)
  · exact .fail _ _

/-- Displaced functions give displaced answers on displaced arguments. -/
theorem callClosure (hev : d.Follows ev) (params : List String) {body body' : Value}
    (hbody : Displaced d body body') (captured : Scope)
    (hargs : List.Forall₂ (Displaced d) args args') :
    d.Tracks (Displaced d) (callClosure ev params body captured args)
      (LazyLisp.callClosure ev params body' (d.scope captured) args') := by
  refine (bindParams params captured hargs).bind fun inner _ heq => ?_
  subst heq
  exact hev hbody inner

/-- A loop over a list in which all calls track each other tracks itself. -/
def Loops (d : Displacement)
    (loop : (Value → Eval Value) → List Value → List Value → Eval (List Value)) : Prop :=
  ∀ {call call' : Value → Eval Value} {gathered gathered' items items' : List Value},
    (∀ {v v'}, Displaced d v v' → d.Tracks (Displaced d) (call v) (call' v')) →
    List.Forall₂ (Displaced d) gathered gathered' → List.Forall₂ (Displaced d) items items' →
    d.Tracks (List.Forall₂ (Displaced d)) (loop call gathered items) (loop call' gathered' items')

theorem mapOnto : Loops d Operator.mapOnto := by
  intro call call' answers answers' items items' hcall hanswers hitems
  induction hitems generalizing answers answers' with
  | nil => exact reversed hanswers
  | cons hv _ ih =>
      rw [Operator.mapOnto_cons, Operator.mapOnto_cons]
      exact (hcall hv).bind fun _ _ hanswer => ih (.cons hanswer hanswers)

/-- What is kept are elements, so it is related as these are. -/
theorem filterOnto {R : Value → Value → Prop} {call call' : Value → Eval Value}
    {kept kept' items items' : List Value}
    (hcall : ∀ {v v'}, R v v' → d.Tracks (Displaced d) (call v) (call' v'))
    (hkept : List.Forall₂ R kept kept') (hitems : List.Forall₂ R items items') :
    d.Tracks (List.Forall₂ R) (Operator.filterOnto call kept items)
      (Operator.filterOnto call' kept' items') := by
  induction hitems generalizing kept kept' with
  | nil => exact .pure (List.forall₂_reverse_iff.mpr hkept)
  | cons hv _ ih =>
      rw [Operator.filterOnto_cons, Operator.filterOnto_cons]
      refine (hcall hv).bind fun answer answer' hanswer => ?_
      cases hanswer with
      | boolean b =>
          cases b with
          | true => exact ih (.cons hv hkept)
          | false => exact ih hkept
      | _ => exact .fail _ _

/-- An operator that goes through a list tracks itself if its loop does. -/
theorem overList (hev : d.Follows ev) (op : Operator)
    {loop : (Value → Eval Value) → List Value → List Value → Eval (List Value)}
    (hloop : Loops d loop) (hargs : List.Forall₂ (Displaced d) args args') :
    d.Tracks (Displaced d) (Operator.overList op ev loop args)
      (Operator.overList op ev loop args') := by
  match hargs with
  | .cons hf (.cons hlist .nil) =>
      cases hf with
      | @closure _ _ params body body' captured hbody =>
          cases hlist with
          | pair hcells =>
              have hcall {v v' : Value} (hv : Displaced d v v') :
                  d.Tracks (Displaced d) (LazyLisp.callClosure ev params body captured [v])
                    (LazyLisp.callClosure ev params body' (d.scope captured) [v']) :=
                callClosure hev params hbody captured (.cons hv .nil)
              exact (hloop hcall .nil hcells.toList).bind fun _ _ hresults =>
                .pure (.pair (.ofList hresults))
          | _ => exact .fail _ _
      | _ => exact .fail _ _
  | .nil => exact .fail _ _
  | .cons _ .nil | .cons _ (.cons _ (.cons _ _)) =>
      rw [Operator.overList_of_length_ne (by simp), Operator.overList_of_length_ne (by simp)]
      exact .fail _ _

/-! ## All operators -/

private theorem tailOf (hev : d.Follows ev) (hargs : List.Forall₂ (Displaced d) args args') :
    d.Tracks (Displaced d) (Operator.tailOf ev args) (Operator.tailOf ev args') := by
  match hargs with
  | .cons hv .nil =>
      cases hv with
      | pair hcells =>
          cases hcells with
          | empty => exact .pure .terminal
          | last _ => exact .pure .terminal
          | cell _ hmore => exact .pure (.pair hmore)
      | lastCell _ => exact .pure .terminal
      | lazyCell _ hrest => exact forceRest hev hrest
      | _ => exact .fail _ _
  | .nil => exact .fail _ _
  | .cons _ (.cons _ _) =>
      rw [Operator.tailOf_of_length_ne (by simp), Operator.tailOf_of_length_ne (by simp)]
      exact .fail _ _

private theorem takeOf (hev : d.Follows ev) (scope : Scope)
    (hargs : List.Forall₂ (Displaced d) args args') :
    d.Tracks (Displaced d) (Operator.takeOf ev scope args)
      (Operator.takeOf ev (d.scope scope) args') := by
  match hargs with
  | .cons hcount (.cons hsequence .nil) =>
      rw [Operator.takeOf, Operator.takeOf, expectInteger_congr hcount, hsequence.isSequence_eq]
      refine (ofExcept (.refl _)).bind fun n _ heq => ?_
      subst heq
      show d.Tracks _ (if n.toInt < 0 then _ else _) (if n.toInt < 0 then _ else _)
      split
      · exact .fail _ _
      · split
        · refine (takeFrom hev _ (.before hsequence) .nil).bind fun items items' hitems => ?_
          rw [root_scope]
          exact .pure (.ready hitems scope.root)
        · exact .fail _ _
  | .nil | .cons _ .nil | .cons _ (.cons _ (.cons _ _)) => exact .fail _ _

private theorem printLine (args args' : List Value) :
    d.Tracks (Displaced d) (Operator.printLine args) (Operator.printLine args') :=
  (print _ _).bind fun _ _ _ => .pure .nil

/-- Every operator. -/
theorem run (hev : d.Follows ev) (scope : Scope)
    (hargs : List.Forall₂ (Displaced d) args args') (op : Operator) :
    d.Tracks (Displaced d) (op.run ev scope args) (op.run ev (d.scope scope) args') := by
  cases op with
  | add | subtract | multiply | divide => exact .ofExcept (arithmetic_agree hargs _)
  | remainder => exact .ofExcept (remainderOf_agree hargs)
  | equal => exact .ofExcept (equality_agree hargs)
  | less | lessEqual | greater | greaterEqual => exact .ofExcept (comparison_agree hargs _)
  | cons => exact .ofExcept (consOf_agree hargs)
  | first => exact .ofExcept (firstOf_agree hargs)
  | tail => exact tailOf hev hargs
  | isEmpty => exact .ofExcept (emptiness_agree hargs)
  | filter => exact overList hev .filter (fun hcall => filterOnto hcall) hargs
  | map => exact overList hev .map mapOnto hargs
  | print => exact printLine args args'
  | range => exact .ofExcept (rangeOf_agree hargs scope)
  | take => exact takeOf hev scope hargs

end Displacement.Tracks

end LazyLisp
