import LazyLisp.Diagnostic
import LazyLisp.Proofs.CallPlaces
import LazyLisp.Proofs.Discipline.Evaluation
import LazyLisp.Proofs.Discipline.Parts
import LazyLisp.Proofs.LoadedPrelude

/-!
# Failures point into the program

A failure shows the innermost call that saw it, and the user is pointed at
the place of that call.  Not all calls that are evaluated come from the
program as they are: a template's body is written elsewhere, perhaps in the
prelude, and the rest of a range is a call that the evaluator makes up.

The invariant that keeps foreign places out is one about all code that is
stored anywhere, that is, bodies of functions and rests of lazy sequences: it
is spelled with calls of the program only, or it is the rest of a range.  Of a
template's body nothing is demanded but that it could be written, as its calls
get the place of the call that it is filled in for.  The rest of a range has
no place, but neither can it fail.

## Main results

* `Spelled.substitute` — a call of a template becomes a form that is spelled
  where the call is.
* `places_lawful` — the evaluator keeps foreign places out.
* `run_failed_place` — after the prelude, a program that fails points at one of
  its own calls, or at all of itself if a name is unbound.
-/

namespace LazyLisp

open Evaluation

namespace Value

/-! ## Code with places -/

/-- The form is written, and its calls stand at these places. -/
def Spelled (S : Span → Prop) (form : Value) : Prop :=
  form.Everywhere fun u =>
    u.isSyntactic = true ∧ ∀ callee args span, u = .call callee args span → S span

/-- If the form is to be evaluated, it is spelled with calls at these places
or it is the rest of a range. -/
def Fits (S : Span → Prop) (form : Value) : Prop :=
  form.isPending = true → form.Spelled S ∨ ∃ low high, form = Operator.rangeCall low high

/-- What is demanded of the code that a value keeps. -/
def Placed (S : Span → Prop) : Value → Prop
  | .closure _ _ body _ => body.Spelled S
  | .template _ body => body.Written
  | .lazyCell _ rest _ => rest.Fits S
  | _ => True

section Spelled

variable {S : Span → Prop} {form callee : Value} {args : List Value} {span : Span}

/-- Forms keep no code: only functions, templates and lazy cells do. -/
theorem placed_of_isSyntactic (h : form.isSyntactic = true) : form.Placed S := by
  cases form <;> first | exact trivial | cases h

/-- A written form holds nothing that keeps code. -/
theorem Written.placed (h : form.Written) : form.Everywhere (Placed S) :=
  h.mono fun _ => placed_of_isSyntactic

/-- A spelled form holds nothing that keeps code either. -/
theorem Spelled.placed (h : form.Spelled S) : form.Everywhere (Placed S) :=
  h.mono fun _ hu => placed_of_isSyntactic hu.1

private theorem spelled_callee (h : (Value.call callee args span).Spelled S) : callee.Spelled S :=
  h.inside (by simp [parts])

/-- The arguments of a spelled call are spelled. -/
theorem spelled_arg (h : (Value.call callee args span).Spelled S) :
    ∀ form ∈ args, form.Spelled S :=
  fun _ hform => h.inside (by simp [parts, hform])

/-- A spelled call stands at one of the places. -/
theorem Spelled.place (h : (Value.call callee args span).Spelled S) : S span :=
  h.here.2 _ _ _ rfl

/-- A template's body is spelled where the call stands that it is filled in
for. -/
theorem Spelled.substitute {params : List String} {body : Value}
    (h : (Value.call callee args span).Spelled S) (hbody : body.Written) :
    (Template.substitute (.ofParams params args) span body).Spelled S := by
  refine Everywhere.substitute ?_ ?_ ?_ ?_ body hbody
  · exact fun name u hu => spelled_arg h u (Bindings.mem_args_of_mem_ofParams hu)
  · exact fun items => ⟨rfl, nofun⟩
  · rintro callee args
    exact ⟨rfl, fun _ _ _ heq => by cases heq; exact h.place⟩
  · intro u hu hvector hcall
    have hhere := hu.here
    cases u with
    | number _ | boolean _ | string _ | symbol _ => exact .of_parts_eq_nil rfl ⟨rfl, nofun⟩
    | vector items => exact absurd rfl hvector
    | call callee args span => exact absurd rfl hcall
    | _ => cases hhere

private theorem primitive?_range :
    primitive? (.symbol Operator.range.name) = some (.operator .range) :=
  Primitive.ofName?_name (.operator .range)

/-- A call that fits is spelled, unless it is the rest of a range. -/
theorem Fits.spelled (h : (Value.call callee args span).Fits S)
    (hrange : primitive? callee ≠ some (.operator .range)) :
    (Value.call callee args span).Spelled S := by
  rcases h rfl with hspelled | ⟨low, high, heq⟩
  · exact hspelled
  · cases heq
    exact absurd primitive?_range hrange

private theorem everywhere_rangeCall (low high : Int64) :
    (Operator.rangeCall low high).Everywhere (Placed S) :=
  everywhere_range trivial trivial fun _ => trivial

end Spelled

end Value

/-! ## The discipline -/

open Value in
/-- Stored code is spelled with calls at these places, and so is what is
evaluated, except for the rests of ranges. -/
def places (S : Span → Prop) : Discipline where
  World := Unit
  Le _ _ := True
  Keeps _ σ := σ.All (Everywhere (Placed S))
  Within _ _ := True
  Data _ v := v.Everywhere (Placed S)
  Code _ _ form := form.Fits S ∧ form.Everywhere (Placed S)
  Allowed f := (f.call = none → ∃ name, f.fault = .unresolved name) ∧
    ∀ c, f.call = some c → S c.span

section Places

open Value

variable {S : Span → Prop}

theorem code_of_spelled {form : Value} (h : form.Spelled S) (w : Unit) (scope : Scope) :
    (places S).Code w scope form :=
  ⟨fun _ => .inl h, h.placed⟩

private theorem places_grows : (places S).Grows where
  le_refl _ := trivial
  le_trans _ _ := trivial
  within_mono _ _ := trivial
  data_mono _ h := h
  code_mono _ h := h

private theorem places_storeLaws : (places S).StoreLaws where
  keeps_frames h hframes := h.congr hframes
  lookup h _ hfind := h.of_find? hfind
  unbound _ _ _ := ⟨fun _ => ⟨_, rfl⟩, nofun⟩
  openInner h _ := ⟨(), trivial, h.addFrame (by simp), fun _ hform => hform⟩
  bindParams := by
    intro w σ serial params body scope args h hclosure hargs _
    have hframe : (σ.addFrame (.ofParams params args)).All (Everywhere (Placed S)) :=
      h.addFrame fun name v hv => hargs v (Bindings.mem_args_of_mem_ofParams hv)
    have hbody : body.Spelled S := hclosure.here
    exact ⟨(), trivial, hframe, code_of_spelled hbody () _⟩
  define name h _ hv := ⟨(), trivial, h.define hv _ name⟩

private theorem places_dataLaws : (places S).DataLaws := by
  refine Discipline.dataLaws_of_everywhere (fun _ _ => rfl) ?_ (fun _ _ => trivial)
    (fun _ _ => trivial) (fun _ _ _ _ hfits hrest => ⟨hfits, hrest⟩)
    (fun _ _ _ _ hrest => hrest) ?_
  · intro w v hv
    cases v <;> first | exact trivial | cases hv
  · intro w head rest scope hkind _ hpending
    rw [isPending_eq_false_of_lazySequence hkind] at hpending
    cases hpending

private theorem places_codeLaws : (places S).CodeLaws where
  code_within _ := trivial
  code_self h _ := h.2
  call_args := by
    intro w scope callee args span p form h _ _ hform
    rcases h.1 rfl with hspelled | ⟨low, high, heq⟩
    · exact code_of_spelled (spelled_arg hspelled form hform) w scope
    · -- the rest of a range has two integers for its arguments
      cases heq
      refine ⟨?_, h.2.inside (List.mem_cons_of_mem _ hform)⟩
      rcases List.mem_cons.mp hform with rfl | hform
      · exact nofun
      · cases List.mem_singleton.mp hform
        exact nofun
  call_other := by
    intro w scope callee args span h hp
    have hspelled := h.1.spelled (by simp [hp])
    exact ⟨code_of_spelled (spelled_callee hspelled) w scope,
      fun form hform => code_of_spelled (spelled_arg hspelled form hform) w scope⟩
  call_define := by
    intro w scope callee target form span h hp
    have hspelled := h.1.spelled (by simp [hp])
    exact code_of_spelled (spelled_arg hspelled form (by simp)) w scope
  call_apply := by
    intro w scope callee form sequence span h hp
    have hspelled := h.1.spelled (by simp [hp])
    exact ⟨code_of_spelled (spelled_arg hspelled sequence (by simp)) w scope,
      fun _ => code_of_spelled (spelled_arg hspelled form (by simp)) w scope⟩
  call_function := by
    intro w scope callee params body span h hp
    have hspelled := h.1.spelled (by simp [hp])
    have hbody : body.Spelled S := spelled_arg hspelled body (by simp)
    exact ⟨fun _ => code_of_spelled (spelled_arg hspelled params (by simp)) w scope,
      fun _ _ _ => .intro hbody (List.forall_mem_singleton.mpr hbody.placed)⟩
  call_template := by
    intro w scope callee params body span h hp
    have hspelled := h.1.spelled (by simp [hp])
    have hbody : body.Written := (spelled_arg hspelled body (by simp)).mono fun _ hu => hu.1
    exact ⟨fun _ => code_of_spelled (spelled_arg hspelled params (by simp)) w scope,
      fun _ => .intro hbody (List.forall_mem_singleton.mpr hbody.placed)⟩
  call_expand := by
    intro w scope callee args span params body h hp htemplate _
    have hspelled := h.1.spelled (by simp [hp])
    exact code_of_spelled (hspelled.substitute htemplate.here) w scope
  range_call low high _ := ⟨fun _ => .inr ⟨low, high, rfl⟩, everywhere_rangeCall low high⟩
  inCall := by
    intro w scope callee args span shown f h hspelled hf
    have hspan : S span := by
      rcases h.1 rfl with hcall | ⟨low, high, heq⟩
      · exact hcall.place
      · exact absurd heq (hspelled low high)
    unfold Failure.inCall
    split
    · rename_i c hc
      rcases hf with hallowed | ⟨fault, _, rfl⟩
      · exact hallowed
      · cases hc
    · refine ⟨nofun, fun c hc => ?_⟩
      cases hc
      exact hspan

/-- The evaluator keeps foreign places out. -/
theorem places_lawful (S : Span → Prop) : (places S).Lawful :=
  { places_grows, places_storeLaws, places_dataLaws, places_codeLaws with }

end Places

/-! ## Failures of programs -/

/-- A written form is spelled with the places of its own calls. -/
theorem Value.Written.spelled {form : Value} (h : form.Written) : form.Spelled form.HasCallAt :=
  (h.and_occursIn .self).mono fun _ hu =>
    ⟨hu.1, fun callee args _ heq => ⟨callee, args, heq ▸ hu.2⟩⟩

/-- In a store whose code comes from a program, or could be written in
templates, a form of the program fails at one of its calls. -/
theorem evaluate_failed_place {S : Span → Prop} {form : Value} {scope : Scope} {σ τ : Store}
    {f : Failure} {fuel : Nat} (hσ : σ.All (Value.Everywhere (Value.Placed S)))
    (hform : form.Spelled S) (h : evaluate fuel form scope σ = .failed f τ) :
    (f.call = none → ∃ name, f.fault = .unresolved name) ∧
      ∀ c, f.call = some c → S c.span := by
  have hsafe := Discipline.evaluate_safe (places_lawful S) fuel () scope form
    (code_of_spelled hform () scope)
  exact (hsafe.failed hσ h).1

/-- A run that fails had read a form, and failed in its evaluation. -/
theorem Program.exists_of_run_failed {fuel : Nat} {source : String} {scope : Scope}
    {σ τ : Store} {f : Failure} (h : Program.run fuel source scope σ = .failed (.failed f) τ) :
    ∃ form, Reader.read source = .ok form ∧ evaluate fuel form scope σ = .failed f τ := by
  unfold Program.run at h
  split at h
  · cases h
  · rename_i form hread
    refine ⟨form, hread, ?_⟩
    cases heval : evaluate fuel form scope σ <;> rw [heval] at h <;> cases h
    rfl

/-- After the prelude, a program that fails without a call has an unbound name
in it, and all of it is pointed at.  If there is a call, it is one of the
program's own and the user is pointed at it. -/
theorem run_failed_place {fuel steps : Nat} {source : String} {scope : Scope} {σ τ : Store}
    {f : Failure} (hprelude : Prelude.openGlobal fuel true .empty = .done scope σ)
    (hrun : Program.run steps source scope σ = .failed (.failed f) τ) :
    ∃ form, Reader.read source = .ok form ∧
      (f.call = none → (∃ name, f.fault = .unresolved name) ∧
        Diagnostic.reportSpan source.utf8ByteSize f = ⟨0, source.utf8ByteSize⟩) ∧
      ∀ c, f.call = some c → form.HasCallAt c.span ∧ c.span ≠ .nowhere ∧
        Diagnostic.reportSpan source.utf8ByteSize f = c.span := by
  obtain ⟨-, -, rfl⟩ := Prelude.openGlobal_empty_eq_done_iff.mp hprelude
  obtain ⟨form, hread, heval⟩ := Program.exists_of_run_failed hrun
  have hspelled : form.Spelled form.HasCallAt := (Reader.written_of_read hread).spelled
  have hloaded : Prelude.loaded.All (Value.Everywhere (Value.Placed form.HasCallAt)) :=
    Prelude.holds_loaded fun _ body hbody =>
      .intro hbody (List.forall_mem_singleton.mpr hbody.placed)
  obtain ⟨hnone, hsome⟩ := evaluate_failed_place hloaded hspelled heval
  refine ⟨form, hread, fun h => ⟨hnone h, Diagnostic.reportSpan_of_none h _⟩, fun c hc => ?_⟩
  obtain ⟨callee, args, hcall⟩ := hsome c hc
  have hspan := Reader.span_of_occursIn hread hcall
  refine ⟨⟨callee, args, hcall⟩, fun hnowhere => ?_, ?_⟩
  · rw [hnowhere] at hspan
    exact absurd hspan.1 (Nat.lt_irrefl 0)
  · simp only [Diagnostic.reportSpan, hc, if_pos hspan]

/-- A call in the body of a template fails, and is placed where the template
was called. -/
theorem run_failed_place_template :
    Prelude.openGlobal 4 true .empty = .done (.global 0) Prelude.loaded ∧
    ∃ τ, Program.run 4 "(do (defmacro double [e] (+ e e)) (double true))" (.global 0)
        Prelude.loaded = .failed (.failed ⟨.notNumber .add 1 .boolean,
          some ⟨"+", [.boolean true, .boolean true], ⟨34, 47⟩⟩⟩) τ ∧
      ∃ form, Reader.read "(do (defmacro double [e] (+ e e)) (double true))" = .ok form ∧
        form.HasCallAt ⟨34, 47⟩ := by
  have hprelude : Prelude.openGlobal 4 true .empty = .done (.global 0) Prelude.loaded :=
    Prelude.openGlobal_empty_eq_done_iff.mpr ⟨Nat.le_refl 4, rfl, rfl⟩
  have hread : Reader.read "(do (defmacro double [e] (+ e e)) (double true))" =
      .ok (.call (.symbol "do")
        [.call (.symbol "defmacro") [.symbol "double", .vector [.symbol "e"],
          .call (.symbol "+") [.symbol "e", .symbol "e"] ⟨25, 32⟩] ⟨4, 33⟩,
        .call (.symbol "double") [.boolean true] ⟨34, 47⟩] ⟨0, 48⟩) := by
    with_unfolding_all rfl
  obtain ⟨τ, hrun⟩ : ∃ τ, Program.run 4 "(do (defmacro double [e] (+ e e)) (double true))"
      (.global 0) Prelude.loaded = .failed (.failed ⟨.notNumber .add 1 .boolean,
        some ⟨"+", [.boolean true, .boolean true], ⟨34, 47⟩⟩⟩) τ := by
    simp only [Program.run, hread]
    exact ⟨_, rfl⟩
  obtain ⟨form, hform, -, hplace⟩ := run_failed_place hprelude hrun
  exact ⟨hprelude, τ, hrun, form, hform, (hplace _ rfl).1⟩

end LazyLisp
