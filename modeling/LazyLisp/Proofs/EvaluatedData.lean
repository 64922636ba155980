import LazyLisp.Proofs.Discipline.Evaluation
import LazyLisp.Proofs.Discipline.Parts
import LazyLisp.Proofs.Reachable

/-!
# Code stays out of data

Symbols, vectors and calls are values like any other, so nothing in the types
keeps a call from being returned, stored or put into a list.  What does is
the evaluator: forms that have not been evaluated are kept in four places
only, namely in vectors, in the bodies of functions and of templates, and as
the rests of lazy cells.  From there an operator never takes anything out as
a value.

The same invariant carries the shape of lists.  A chain of cells could go on
into the empty list, but no operator builds one that does, and so what
follows the first of several elements is always a list that has elements.

## Main results

* `evaluate_evaluated` — evaluation turns written forms into evaluated data.
* `Evaluated.sound` — evaluated data is sound at any depth.
* `reachable_sound` — all that programs return or bind is sound.
-/

namespace LazyLisp

open Evaluation

namespace Value

/-! ## Evaluated data -/

/-- The value is data as evaluation makes it: forms occur in it only where
they are kept for later, and there they are written ones. -/
inductive Evaluated : Value → Prop where
  | atomic {v : Value} (h : v.isAtomic = true) : Evaluated v
  | vector {items : List Value} (h : ∀ v ∈ items, v.Written) : Evaluated (.vector items)
  | pair {cells : Chain Value} (hended : cells.Ended) (h : ∀ v ∈ cells.toList, Evaluated v) :
      Evaluated (.pair cells)
  | closure {serial : Nat} {params : List String} {body : Value} {scope : Scope}
      (h : body.Written) : Evaluated (.closure serial params body scope)
  | template {params : List String} {body : Value} (h : body.Written) :
      Evaluated (.template params body)
  | lastCell {head : Value} (h : Evaluated head) : Evaluated (.lastCell head)
  | pendingCell {head rest : Value} {scope : Scope} (h : Evaluated head)
      (hpending : rest.isPending = true) (hrest : rest.Written) :
      Evaluated (.lazyCell head rest scope)
  | readyCell {head rest : Value} {scope : Scope} (h : Evaluated head)
      (hkind : rest.kind = .lazySequence) (hrest : Evaluated rest) :
      Evaluated (.lazyCell head rest scope)

/-- No call is evaluated data. -/
theorem Evaluated.not_call {v : Value} (h : v.Evaluated) : v.kind ≠ .call := by
  intro hkind
  cases h with
  | atomic hatomic =>
      cases v with
      | call callee args span => cases hatomic
      | number n => cases n <;> cases hkind
      | _ => cases hkind
  | _ => cases hkind

/-- A form that is done with is data as soon as it is written. -/
theorem Written.evaluated {v : Value} (h : v.Written) (hpending : v.isPending = false) :
    v.Evaluated := by
  have hhere := h.here
  cases v with
  | vector items => exact .vector fun u hu => h.inside hu
  | number _ | boolean _ | string _ => exact .atomic rfl
  | symbol name => cases hpending
  | call callee args span => cases hpending
  | _ => cases hhere

/-- Of evaluated data only symbols are forms, and those are written. -/
theorem Evaluated.written {v : Value} (h : v.Evaluated) (hpending : v.isPending = true) :
    v.Written := by
  cases v with
  | symbol name => exact .of_parts_eq_nil rfl rfl
  | call callee args span => exact absurd rfl h.not_call
  | _ => cases hpending

end Value

/-! ## The discipline -/

/-- Stored values are evaluated, and what is evaluated is a written form or
data that stands for itself. -/
def evaluatedData : Discipline where
  World := Unit
  Le _ _ := True
  Keeps _ σ := σ.All Value.Evaluated
  Within _ _ := True
  Data _ v := v.Evaluated
  Code _ _ form := form.Written ∨ form.Evaluated
  Allowed _ := True

private theorem evaluatedData_grows : evaluatedData.Grows where
  le_refl _ := trivial
  le_trans _ _ := trivial
  within_mono _ _ := trivial
  data_mono _ h := h
  code_mono _ h := h

private theorem evaluatedData_storeLaws : evaluatedData.StoreLaws where
  keeps_frames h hframes := h.congr hframes
  lookup h _ hfind := h.of_find? hfind
  unbound _ _ _ := trivial
  openInner h _ := ⟨(), trivial, h.addFrame (by simp), fun _ hform => hform⟩
  bindParams := by
    intro w σ serial params body scope args h hclosure hargs _
    have hframe : (σ.addFrame (.ofParams params args)).All Value.Evaluated :=
      h.addFrame fun name v hv => hargs v (Bindings.mem_args_of_mem_ofParams hv)
    cases hclosure with
    | closure hbody => exact ⟨(), trivial, hframe, .inl hbody⟩
    | atomic hatomic => cases hatomic
  define name h _ hv := ⟨(), trivial, h.define hv _ name⟩

private theorem evaluatedData_dataLaws : evaluatedData.DataLaws where
  atomic h := .atomic h
  items := by
    intro w cells v h hv
    cases h with
    | pair _ hitems => exact hitems v hv
    | atomic hatomic => cases hatomic
  tail := by
    intro w head cells h
    cases h with
    | pair hended hitems => exact .pair hended.2 fun v hv => hitems v (List.mem_cons_of_mem _ hv)
    | atomic hatomic => cases hatomic
  cell := by
    intro w head cells hhead hcells hnonempty
    cases hcells with
    | pair hended hitems =>
        exact .pair ⟨hnonempty, hended⟩ (List.forall_mem_cons.mpr ⟨hhead, hitems⟩)
    | atomic hatomic => cases hatomic
  ofList := by
    intro w items h
    refine .pair (Chain.ended_ofList items) fun v hv => h v ?_
    rwa [Chain.toList_ofList] at hv
  lastCell := by
    intro w head
    refine ⟨fun h => ?_, .lastCell⟩
    cases h with
    | lastCell hhead => exact hhead
    | atomic hatomic => cases hatomic
  lazyCell := by
    intro w head rest scope h
    cases h with
    | pendingCell hhead _ hrest => exact ⟨hhead, .inl hrest⟩
    | readyCell hhead _ hrest => exact ⟨hhead, .inr hrest⟩
    | atomic hatomic => cases hatomic
  pending := by
    intro w head rest scope hhead hpending hrest
    rcases hrest with hwritten | hevaluated
    · exact .pendingCell hhead hpending hwritten
    · exact .pendingCell hhead hpending (hevaluated.written hpending)
  ready hhead hrest hkind _ := .readyCell hhead hkind hrest

/-- The parts of a call that may be evaluated are written. -/
theorem written_parts_of_code {callee : Value} {args : List Value} {span : Span}
    (h : (Value.call callee args span).Written ∨ (Value.call callee args span).Evaluated) :
    callee.Written ∧ ∀ form ∈ args, form.Written := by
  rcases h with hwritten | hevaluated
  · exact List.forall_mem_cons.mp fun u hu => hwritten.inside hu
  · exact absurd rfl hevaluated.not_call

private theorem evaluatedData_codeLaws : evaluatedData.CodeLaws where
  code_within _ := trivial
  code_self h hpending := h.elim (fun hwritten => hwritten.evaluated hpending) id
  call_args h _ _ hform := .inl ((written_parts_of_code h).2 _ hform)
  call_other h _ :=
    ⟨.inl (written_parts_of_code h).1,
      fun form hform => .inl ((written_parts_of_code h).2 form hform)⟩
  call_define h _ := .inl ((written_parts_of_code h).2 _ (by simp))
  call_apply h _ :=
    ⟨.inl ((written_parts_of_code h).2 _ (by simp)),
      fun _ => .inl ((written_parts_of_code h).2 _ (by simp))⟩
  call_function h _ :=
    ⟨fun _ => .inl ((written_parts_of_code h).2 _ (by simp)),
      fun _ _ _ => .closure ((written_parts_of_code h).2 _ (by simp))⟩
  call_template h _ :=
    ⟨fun _ => .inl ((written_parts_of_code h).2 _ (by simp)),
      fun _ => .template ((written_parts_of_code h).2 _ (by simp))⟩
  call_expand := by
    intro w scope callee args span params body h _ htemplate _
    have hargs := (written_parts_of_code h).2
    cases htemplate with
    | template hbody =>
        refine .inl (hbody.substitute (fun name u hu => ?_) span)
        exact hargs u (Bindings.mem_args_of_mem_ofParams hu)
    | atomic hatomic => cases hatomic
  range_call _ _ _ := .inl (Value.everywhere_range rfl rfl fun _ => rfl)
  inCall _ _ _ := trivial

/-- The evaluator keeps code out of data. -/
theorem evaluatedData_lawful : evaluatedData.Lawful :=
  { evaluatedData_grows, evaluatedData_storeLaws, evaluatedData_dataLaws,
    evaluatedData_codeLaws with }

/-! ## What is held in data -/

namespace Value

/-- What a program gets out of a value without evaluating anything: elements,
heads, and rests that are there already.  Vectors, bodies and deferred rests
are closed. -/
def held : Value → List Value
  | .pair cells => cells.toList
  | .lastCell head => [head]
  | .lazyCell head rest _ => if rest.isPending then [head] else [head, rest]
  | _ => []

/-- The first value is held in the second one, at any depth. -/
inductive HeldIn (u : Value) : Value → Prop where
  | self : HeldIn u u
  | part {t v : Value} (ht : t ∈ v.held) (h : HeldIn u t) : HeldIn u v

/-- What follows the first element of a list whose cells end as they should:
the terminal marker if there is at most one element, and else a list with
elements. -/
def TailFits (cells : Chain Value) : Prop :=
  ∀ ev : Evaluator, (Operator.tailOf ev [.pair cells] = pure .terminal ↔ cells.toList.length ≤ 1) ∧
    (1 < cells.toList.length → ∃ rest : Chain Value,
      Operator.tailOf ev [.pair cells] = pure (.pair rest) ∧ rest.isEmpty = false)

private theorem tailFits_of_ended {cells : Chain Value} (h : cells.Ended) : TailFits cells := by
  intro ev
  have hnone := h.tail?_eq_none_iff
  cases htail : cells.tail? with
  | none =>
      have hlen : cells.toList.length ≤ 1 := hnone.mp htail
      have hvalue : Operator.tailOf ev [.pair cells] = pure .terminal := by
        simp only [Operator.tailOf, htail]
      exact ⟨⟨fun _ => hlen, fun _ => hvalue⟩, fun hmore => absurd hlen (Nat.not_le_of_lt hmore)⟩
  | some rest =>
      have hlen : ¬ cells.toList.length ≤ 1 := by
        rw [← hnone, htail]
        exact nofun
      have hvalue : Operator.tailOf ev [.pair cells] = pure (.pair rest) := by
        simp only [Operator.tailOf, htail]
      refine ⟨⟨fun heq => ?_, fun hle => absurd hle hlen⟩, fun _ => ?_⟩
      · rw [hvalue] at heq
        cases congrFun heq .empty
      · exact ⟨rest, hvalue, h.isEmpty_tail htail⟩

/-- What is asked of a single value that a program can get at. -/
structure Sound (v : Value) : Prop where
  /-- It is not code that should have been evaluated. -/
  not_call : v.kind ≠ .call
  /-- Calls stand in it only in a vector, in a body, or as a deferred rest. -/
  calls : ∀ u ∈ v.parts, u.kind = .call →
    v.kind = .vector ∨ v.kind = .closure ∨ v.kind = .template ∨
      ∃ head scope, v = .lazyCell head u scope
  /-- What a program cannot get at is code as it was written, with no data in
  it. -/
  closed : ∀ u ∈ v.parts, u ∉ v.held → u.Written
  /-- A rest is a form to evaluate, or a lazy sequence. -/
  rest : ∀ head rest scope, v = .lazyCell head rest scope →
    rest.kind = .symbol ∨ rest.kind = .call ∨ rest.kind = .lazySequence
  /-- No cell of a list is followed by the empty list. -/
  ended : ∀ cells, v = .pair cells → cells.Ended
  /-- So the tail of a list has elements or is the terminal marker. -/
  tail : ∀ cells, v = .pair cells → TailFits cells

private theorem held_of_isAtomic {v : Value} (h : v.isAtomic = true) : v.held = [] := by
  cases v <;> first | rfl | cases h

/-- What evaluated data holds is evaluated data. -/
theorem Evaluated.of_held {u v : Value} (h : v.Evaluated) (hu : u ∈ v.held) : u.Evaluated := by
  cases h with
  | pair _ hitems => exact hitems u hu
  | lastCell hhead =>
      cases List.mem_singleton.mp hu
      exact hhead
  | pendingCell hhead hpending _ =>
      rw [held, if_pos hpending] at hu
      cases List.mem_singleton.mp hu
      exact hhead
  | @readyCell head rest _ hhead hkind hrest =>
      rw [held, isPending_eq_false_of_lazySequence hkind] at hu
      rcases List.mem_cons.mp hu with rfl | hu
      · exact hhead
      · cases List.mem_singleton.mp hu
        exact hrest
  | atomic hatomic =>
      rw [held_of_isAtomic hatomic] at hu
      cases hu
  | vector _ => cases hu
  | closure _ => cases hu
  | template _ => cases hu

private theorem Evaluated.written_of_not_held {u v : Value} (h : v.Evaluated) (hu : u ∈ v.parts)
    (hheld : u ∉ v.held) : u.Written := by
  cases h with
  | vector hitems => exact hitems u hu
  | closure hbody =>
      cases List.mem_singleton.mp hu
      exact hbody
  | template hbody =>
      cases List.mem_singleton.mp hu
      exact hbody
  | pendingCell _ hpending hrest =>
      rw [held, if_pos hpending] at hheld
      rcases List.mem_cons.mp hu with rfl | hu
      · exact absurd (List.mem_singleton_self _) hheld
      · cases List.mem_singleton.mp hu
        exact hrest
  | readyCell _ hkind _ =>
      rw [held, isPending_eq_false_of_lazySequence hkind] at hheld
      exact absurd hu hheld
  | pair _ _ => exact absurd hu hheld
  | lastCell _ => exact absurd hu hheld
  | atomic hatomic =>
      rw [parts_of_isAtomic hatomic] at hu
      cases hu

private theorem Evaluated.ended {cells : Chain Value} (h : (Value.pair cells).Evaluated) :
    cells.Ended := by
  cases h with
  | pair hended _ => exact hended
  | atomic hatomic => cases hatomic

/-- Evaluated data is sound. -/
theorem Evaluated.sound {v : Value} (h : v.Evaluated) : v.Sound where
  not_call := h.not_call
  calls := by
    intro u hu hkind
    have hheld (hu : u ∈ v.held) : False := (h.of_held hu).not_call hkind
    cases v with
    | vector _ => exact .inl rfl
    | closure _ _ _ _ => exact .inr (.inl rfl)
    | template _ _ => exact .inr (.inr (.inl rfl))
    | lazyCell head rest scope =>
        rcases List.mem_cons.mp hu with rfl | hu
        · have hhead : u ∈ (Value.lazyCell u rest scope).held := by
            rw [held]
            split <;> simp
          exact (hheld hhead).elim
        · cases List.mem_singleton.mp hu
          exact .inr (.inr (.inr ⟨head, scope, rfl⟩))
    | pair cells => exact (hheld hu).elim
    | lastCell head => exact (hheld hu).elim
    | call callee args span => exact absurd rfl h.not_call
    | _ => cases hu
  closed _ hu hheld := h.written_of_not_held hu hheld
  rest := by
    rintro head rest scope rfl
    cases h with
    | pendingCell _ hpending _ =>
        rcases isPending_iff.mp hpending with hsymbol | hcall
        · exact .inl hsymbol
        · exact .inr (.inl hcall)
    | readyCell _ hkind _ => exact .inr (.inr hkind)
    | atomic hatomic => cases hatomic
  ended := by
    rintro cells rfl
    exact h.ended
  tail := by
    rintro cells rfl
    exact tailFits_of_ended h.ended

/-- All that is held in the value is sound, at any depth. -/
def SoundThroughout (v : Value) : Prop := ∀ u, HeldIn u v → u.Sound

/-- Evaluated data is sound at every depth. -/
theorem Evaluated.soundThroughout {v : Value} (h : v.Evaluated) : v.SoundThroughout := by
  intro u hu
  induction hu with
  | self => exact h.sound
  | part ht _ ih => exact ih (h.of_held ht)

end Value

/-! ## Evaluation -/

/-- Evaluation turns written forms into evaluated data, in a store of such
data. -/
theorem evaluate_evaluated {σ : Store} (hσ : σ.All Value.Evaluated) {form : Value}
    (hform : form.Written) (fuel : Nat) (scope : Scope) :
    match evaluate fuel form scope σ with
    | .done v τ => v.Evaluated ∧ τ.All Value.Evaluated
    | .failed _ τ => τ.All Value.Evaluated
    | .exhausted => True := by
  have hsafe := evaluatedData.evaluate_safe evaluatedData_lawful fuel () scope form (.inl hform)
  cases h : evaluate fuel form scope σ with
  | done v τ =>
      obtain ⟨_, -, hτ, hv⟩ := hsafe.done hσ h
      exact ⟨hv, hτ⟩
  | failed f τ =>
      obtain ⟨-, _, -, hτ⟩ := hsafe.failed hσ h
      exact hτ
  | exhausted => exact trivial

private theorem Workspace.Reachable.evaluated {w : Workspace} (hw : w.Reachable) :
    w.store.All Value.Evaluated := by
  refine hw.invariant (I := fun w => w.store.All Value.Evaluated) .empty (fun _ h => h) ?_
  intro w target w' hσ hchange
  cases hchange with
  | none => exact hσ
  | child _ => exact hσ.addFrame (by simp)
  | opened => exact hσ.addFrame (by simp)
  | @evaluated scope form fuel τ _ hform hends =>
      have hsafe := evaluate_evaluated hσ hform fuel scope
      rcases hends with ⟨v, h⟩ | ⟨f, h⟩
      · rw [h] at hsafe
        exact hsafe.2
      · rw [h] at hsafe
        exact hsafe
  | @bound scope form v fuel τ name _ hform h _ =>
      have hsafe := evaluate_evaluated hσ hform fuel scope
      rw [h] at hsafe
      exact hsafe.2.define hsafe.1 scope.frame name

private theorem soundThroughout_of_evaluated {σ : Store} (h : σ.All Value.Evaluated) :
    σ.All Value.SoundThroughout :=
  h.mono fun _ hv => hv.soundThroughout

/-- In every reachable workspace all that is bound is sound at any depth.
That is so again after any program that is run in it, in whatever scope, and
of the program's value. -/
theorem reachable_sound {w : Workspace} (hw : w.Reachable) :
    w.store.All Value.SoundThroughout ∧
      ∀ (source : String) (form : Value), Reader.read source = .ok form →
        ∀ (fuel : Nat) (scope : Scope),
          match evaluate fuel form scope w.store with
          | .done v τ => v.SoundThroughout ∧ τ.All Value.SoundThroughout
          | .failed _ τ => τ.All Value.SoundThroughout
          | .exhausted => True := by
  refine ⟨soundThroughout_of_evaluated hw.evaluated, fun source form hread fuel scope => ?_⟩
  have hsafe := evaluate_evaluated hw.evaluated (Reader.written_of_read hread) fuel scope
  cases h : evaluate fuel form scope w.store with
  | done v τ =>
      rw [h] at hsafe
      exact ⟨hsafe.1.soundThroughout, soundThroughout_of_evaluated hsafe.2⟩
  | failed f τ =>
      rw [h] at hsafe
      exact soundThroughout_of_evaluated hsafe
  | exhausted => exact trivial

/-- A workspace with a list of two elements. -/
def twoElements : Workspace :=
  ((Workspace.start 1 false).perform 4 (.run 0 "(def p (cons 1 (cons 2)))")).2

/-- A program binds a list of two elements, and all that is bound then is sound. -/
theorem reachable_sound_list :
    twoElements.Reachable ∧
      twoElements.store.bindings 0 = [("p", .pair (.cell (.integer 1) (.last (.integer 2))))] ∧
        twoElements.store.All Value.SoundThroughout := by
  have hw : twoElements.Reachable := .perform 4 _ (.start 1 false)
  exact ⟨hw, by with_unfolding_all rfl, (reachable_sound hw).1⟩

end LazyLisp
