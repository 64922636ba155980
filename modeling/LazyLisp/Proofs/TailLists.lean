import LazyLisp.Proofs.Displacement.Evaluation
import LazyLisp.Proofs.FrameIsolation
import LazyLisp.Proofs.ListFunctions

/-!
# Functions over the tail of a list

Taking the tail of a list and going over it with a function are two things
that should not care which of them comes first.  They do not, if the function
has no effects and there is a list to go over: the call on the first element
that the one order makes and the other leaves out has opened frames and built
functions, so what the other calls answer is the same up to the numbers of
these.

The tail of a list of one element is the terminal marker, and this is no list
for `map` and `filter`.  They refuse it, as they refuse everything else that
is no pair, and there the law ends.

## Main results

* `Store.Closed.linked` — a call without effects leaves a linked store.
* `Workspace.Reachable.closed` — no value that a run has bound has a scope
  with frames that are not there.
* `map_filter_tail` — the law, and where it ends.
* `not_map_filter_tail_last` — it does not hold of a list of one element.
-/

namespace LazyLisp

open Evaluation

/-! ## Stores that nothing leads out of -/

namespace Store

/-- All scopes kept in the value are made of frames that are there. -/
def Covers (σ : Store) (v : Value) : Prop :=
  v.KeepsOnly fun s => ∀ f ∈ s.frames, f < σ.frames.size

/-- All values that are bound keep such scopes only. -/
def Closed (σ : Store) : Prop := σ.All σ.Covers

/-- The second store has come from the first one without an effect on what was
there: frames may be new, functions built and lines printed. -/
structure Extends (σ τ : Store) : Prop where
  size_le : σ.frames.size ≤ τ.frames.size
  bindings : ∀ f, f < σ.frames.size → τ.bindings f = σ.bindings f

variable {σ τ : Store} {d : Displacement} {v : Value}

/-- A new frame extends the store. -/
theorem extends_addFrame (σ : Store) (b : Bindings) : σ.Extends (σ.addFrame b) where
  size_le := Nat.le.intro size_addFrame.symm
  bindings f hf := by rw [bindings_addFrame, if_neg (Nat.ne_of_lt hf)]

/-- Frames that come later may be moved, and the value stays as it is. -/
theorem Covers.displaced (h : σ.Covers v) (hstart : d.start = σ.frames.size) :
    v.Displaced d v :=
  .refl (h.mono fun _ hframes => Displacement.scope_eq_self (hstart ▸ hframes))

/-- The parts of a covered value are not moved. -/
theorem Covers.displaced_of_mem (h : σ.Covers v) (hstart : d.start = σ.frames.size) {u : Value}
    (hu : u ∈ v.parts) : u.Displaced d u :=
  Covers.displaced (h.inside hu) hstart

/-- The displacement of what is opened over the one store to what is opened over
the other. -/
def displacement (σ τ : Store) : Displacement := ⟨σ.frames.size, τ.frames.size - σ.frames.size⟩

theorem Closed.linked (h : σ.Closed) (hτ : σ.Extends τ) : (σ.displacement τ).Linked σ τ where
  start_le := Nat.le_refl _
  size_eq := (Nat.add_sub_of_le hτ.size_le).symm
  bindings f := by
    have hself : (σ.bindings f).Displaced (σ.displacement τ) (σ.bindings f) :=
      List.forall₂_same.mpr fun e he => ⟨rfl, (h e.2 ⟨f, e.1, he⟩).displaced rfl⟩
    by_cases hf : f < σ.frames.size
    · rwa [Displacement.frame_of_lt hf, hτ.bindings f hf]
    · have hge := Nat.le_of_not_lt hf
      have hmoved : τ.frames.size ≤ f + (τ.frames.size - σ.frames.size) := by omega
      rw [Displacement.frame_of_le hge, bindings_of_size_le hge, displacement,
        bindings_of_size_le hmoved]
      exact .nil

end Store

/-- In a forest the scopes that are kept are made of frames that are there. -/
theorem Forest.closed {opened : Scope → Prop} {σ : Store} (h : Forest opened σ) : σ.Closed := by
  rintro v ⟨f, name, hmem⟩
  by_cases hf : f < σ.frames.size
  · obtain ⟨s, hs, rfl⟩ := h.complete hf
    exact (h.kept hs hmem).mono fun c hc _ => h.lt_of_mem_frames hc.1
  · rw [Store.bindings_of_size_le (Nat.le_of_not_lt hf)] at hmem
    cases hmem

/-- The store of a reachable workspace is closed. -/
theorem Workspace.Reachable.closed {w : Workspace} (hw : w.Reachable) : w.store.Closed := by
  obtain ⟨opened, h⟩ := hw.charted
  exact h.forest.closed

/-! ## The law -/

/-- The computation has no effect on what is there, if it has an answer. -/
def Eval.HasNoEffect {α : Type} (x : Eval α) (σ : Store) : Prop :=
  ∀ a τ, x σ = .done a τ → σ.Extends τ

/-- Two lists, or markers that stand for empty ones, have the same elements up to
the numbers of functions, and of frames from a number on. -/
def Value.SameItems (start : Nat) (t u : Value) : Prop :=
  ∃ ts us offset, t.listItems? = some ts ∧ u.listItems? = some us ∧
    List.Forall₂ (Value.Displaced ⟨start, offset⟩) ts us

namespace Operator

section Law

variable (fuel : Nat) (scope : Scope) {serial : Nat} {params : List String} {body : Value}
  {captured : Scope} (x : Value) (rest : Chain Value) {σ : Store}

/-- A function that keeps only frames from before a displacement is called alike in
the stores that this links. -/
theorem tracks_callClosure (hf : σ.Covers (.closure serial params body captured))
    {d : Displacement} (hstart : d.start = σ.frames.size) {v v' : Value}
    (hv : v.Displaced d v') :
    d.Tracks (Value.Displaced d) (callClosure (evaluate fuel) params body captured [v])
      (callClosure (evaluate fuel) params body captured [v']) := by
  have hbody : σ.Covers body := hf.inside (List.mem_singleton_self body)
  have hcaptured : d.scope captured = captured :=
    Displacement.scope_eq_self (hstart ▸ hf.here captured rfl)
  have hcall := Displacement.Tracks.callClosure (d.evaluate_follows fuel) params
    (hbody.displaced hstart) captured (.cons hv .nil)
  rwa [hcaptured] at hcall

variable (serial) (hclosed : σ.Closed)
  (heffect : (callClosure (evaluate fuel) params body captured [x]).HasNoEffect σ)

include hclosed heffect

/-- An operator that goes through a list to its end goes through the tail of it as
well.  What it gathers there is related to what it gathered behind the first. -/
theorem overList_tail (op : Operator) {R : Displacement → Value → Value → Prop}
    {loop : (Value → Eval Value) → List Value → List Value → Eval (List Value)}
    {verdict : Value → Option Fault} {gather : Value → Value → Option Value}
    (hloop : ∀ call gathered items,
      loop call gathered items = pass verdict gather call gathered items)
    (htracks : ∀ d : Displacement, d.start = σ.frames.size →
      let call (v : Value) : Eval Value := callClosure (evaluate fuel) params body captured [v]
      d.Tracks (List.Forall₂ (R d)) (loop call [] rest.toList) (loop call [] rest.toList))
    {r : Value} {τ : Store}
    (hdone : overList op (evaluate fuel) loop
      [.closure serial params body captured, .pair (.cell x rest)] σ = .done r τ) :
    ∃ answer υ τ' ys zs,
      callClosure (evaluate fuel) params body captured [x] σ = .done answer υ ∧
      verdict answer = none ∧
      overList op (evaluate fuel) loop [.closure serial params body captured, .pair rest] σ =
        .done (.pair (.ofList ys)) τ' ∧
      r = .pair (.ofList ((gather x answer).toList ++ zs)) ∧
      List.Forall₂ (R (σ.displacement υ)) ys zs := by
  let call (v : Value) : Eval Value := callClosure (evaluate fuel) params body captured [v]
  have hover (cells : Chain Value) :
      overList op (evaluate fuel) loop [.closure serial params body captured, .pair cells] σ =
        (loop call [] cells.toList σ).map fun results => .pair (.ofList results) :=
    Eval.bind_pure_apply ..
  rw [hover, Chain.toList_cell] at hdone
  cases hresults : loop call [] (x :: rest.toList) σ with
  | done results τ' =>
      rw [hresults] at hdone
      cases hdone
      rw [hloop] at hresults
      obtain ⟨answer, υ, zs, hfirst, hgood, hothers, rfl⟩ := pass_cons_eq_done hresults
      rw [← hloop] at hothers
      -- the others were gone through from where the first call ended, and are so from the start
      have hends := htracks (σ.displacement υ) rfl σ υ (hclosed.linked (heffect answer υ hfirst))
      rw [hothers] at hends
      obtain ⟨ys, τ', hys, hrelated⟩ := hends.done_left
      exact ⟨answer, υ, τ', ys, zs, hfirst, hgood, by rw [hover, hys]; rfl, rfl, hrelated⟩
  | _ =>
      rw [hresults] at hdone
      cases hdone

variable (hf : σ.Covers (.closure serial params body captured))
  (hlist : σ.Covers (.pair (.cell x rest)))

include hf hlist

/-- What `map` gives for the tail of a list stands behind the first answer in what it
gives for the list. -/
theorem map_tail {r : Value} {τ : Store}
    (hdone : run (evaluate fuel) scope
      [.closure serial params body captured, .pair (.cell x rest)] .map σ = .done r τ) :
    ∃ answer υ τ' ys zs, run (evaluate fuel) scope
        [.closure serial params body captured, .pair rest] .map σ = .done (.pair (.ofList ys)) τ' ∧
      r = .pair (.ofList (answer :: zs)) ∧
      List.Forall₂ (Value.Displaced (σ.displacement υ)) ys zs := by
  obtain ⟨answer, υ, τ', ys, zs, -, -, hrest, hr, hrelated⟩ :=
    overList_tail fuel serial x rest hclosed heffect .map mapOnto_eq_pass
      (fun d hd => Displacement.Tracks.mapOnto (tracks_callClosure fuel hf hd) .nil
        (List.forall₂_same.mpr fun v hv =>
          hlist.displaced_of_mem hd (List.mem_cons_of_mem x hv))) hdone
  exact ⟨answer, υ, τ', ys, zs, hrest, hr, hrelated⟩

/-- What `filter` keeps of the tail of a list it keeps of the list, after the first
element if that is kept. -/
theorem filter_tail {r : Value} {τ : Store}
    (hdone : run (evaluate fuel) scope
      [.closure serial params body captured, .pair (.cell x rest)] .filter σ = .done r τ) :
    ∃ b υ τ' kept, run (evaluate fuel) scope
        [.closure serial params body captured, .pair rest] .filter σ =
          .done (.pair (.ofList kept)) τ' ∧
      callClosure (evaluate fuel) params body captured [x] σ = .done (.boolean b) υ ∧
      r = .pair (.ofList ((if b then [x] else []) ++ kept)) := by
  obtain ⟨answer, υ, τ', ys, zs, hfirst, hgood, hrest, hr, hrelated⟩ :=
    overList_tail (R := fun d v v' => v = v' ∧ v.Displaced d v') fuel serial x rest hclosed heffect
      .filter filterOnto_eq_pass
      (fun d hd => Displacement.Tracks.filterOnto
        (fun hv => tracks_callClosure fuel hf hd hv.2) .nil
        (List.forall₂_same.mpr fun v hv =>
          ⟨rfl, hlist.displaced_of_mem hd (List.mem_cons_of_mem x hv)⟩)) hdone
  have hsame : ys = zs := forall₂_eq_of_mem hrelated fun y _ z hyz => hyz.1
  cases answer with
  | boolean b =>
      refine ⟨b, υ, τ', ys, hrest, hfirst, ?_⟩
      rw [hr, hsame]
      cases b <;> rfl
  | _ => cases hgood

omit hclosed heffect hf hlist in
/-- The tail of a list with a first element. -/
theorem tailOf_ofList_cons (ev : Evaluator) (y : Value) (zs : List Value) (τ : Store) :
    ∃ u, tailOf ev [.pair (.ofList (y :: zs))] τ = .done u τ ∧ u.listItems? = some zs := by
  cases zs with
  | nil => exact ⟨.terminal, rfl, rfl⟩
  | cons z zs =>
      exact ⟨.pair (.ofList (z :: zs)), rfl, congrArg some (Chain.toList_ofList (z :: zs))⟩

end Law

end Operator

end LazyLisp
