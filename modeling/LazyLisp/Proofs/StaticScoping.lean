import LazyLisp.Proofs.Discipline.Evaluation
import LazyLisp.Proofs.Discipline.Parts

/-!
# Static scoping

Which names an evaluation looks up can be read off the form: the language
has no construct that evaluates a form in a scope other than the one it was
written in, templates apart.  So a program without templates whose free
names all have a value never comes upon one that has none.

Templates are left out, and so are functions whose parameters are not
written in place, because neither shows which names it needs.  For all other
code the property is one of the whole store: what a function needs beyond
its parameters, and what a deferred rest needs, must resolve in the scope
that was kept with it, for everything that is bound anywhere.  Names are
never lost, so this lasts.

## Main results

* `scoping_lawful` — the evaluator keeps static scoping up.
* `evaluate_never_unresolved` — an evaluation whose names resolve never
  fails over a name, and leaves a store where the same holds.
-/

namespace LazyLisp

open Evaluation

namespace Value

/-! ## Free names -/

/-- The names among the items of a parameter list. -/
def symbolNames : List Value → List String
  | [] => []
  | .symbol name :: rest => name :: symbolNames rest
  | _ :: rest => symbolNames rest

mutual

/-- The names that a form needs in the scope where it is evaluated. -/
def free : Value → List String
  | .symbol name => [name]
  | .call callee args _ =>
      match primitive? callee with
      | none => free callee ++ freeAll args
      | some (.special .define) => freeOfDefinition args
      | some (.special .function) => freeOfFunction args
      | some (.special .apply) => freeOfApplication args
      | some _ => freeAll args
  | _ => []

/-- The names that a row of forms needs. -/
def freeAll : List Value → List String
  | [] => []
  | form :: rest => free form ++ freeAll rest

/-- The name that is defined needs no value. -/
def freeOfDefinition : List Value → List String
  | [] => []
  | _ :: rest => freeAll rest

/-- Parameters that are written in place have their values from the call. -/
def freeOfFunction : List Value → List String
  | [] => []
  | .vector items :: rest => (freeAll rest).filter (· ∉ symbolNames items)
  | params :: rest => free params ++ freeAll rest

/-- A primitive is applied by its name. -/
def freeOfApplication : List Value → List String
  | [] => []
  | form :: rest => (if (primitive? form).isSome then [] else free form) ++ freeAll rest

end

private theorem free_of_isPending_eq_false {v : Value} (h : v.isPending = false) : v.free = [] := by
  cases v with
  | symbol name => cases h
  | call callee args span => cases h
  | _ => rfl

private theorem mem_freeAll {name : String} {forms : List Value} :
    name ∈ freeAll forms ↔ ∃ form ∈ forms, name ∈ form.free := by
  induction forms with
  | nil => simp [freeAll]
  | cons form rest ih => simp [freeAll, ih]

private theorem free_call_of_evaluatesAll {callee : Value} {args : List Value} {span : Span}
    {p : Primitive} (hp : primitive? callee = some p) (h : p.evaluatesAll = true) :
    (Value.call callee args span).free = freeAll args := by
  rw [free, hp]
  cases p with
  | operator op => rfl
  | special special => cases special <;> first | rfl | cases h

private theorem symbolNames_of_names {items : List Value} {names : List String}
    (h : readParams.names items = .ok names) : symbolNames items = names := by
  induction items generalizing names with
  | nil =>
      cases h
      rfl
  | cons item rest ih =>
      cases item with
      | symbol name =>
          rw [readParams.names] at h
          cases hrest : readParams.names rest with
          | error fault =>
              rw [hrest] at h
              cases h
          | ok more =>
              rw [hrest] at h
              cases h
              rw [symbolNames, ih hrest]
      | _ => cases h

/-! ## Scoped values -/

/-- The value is a template, a form that makes one, or a function form whose
parameter list is a name. -/
def isDynamic : Value → Bool
  | .template _ _ => true
  | .call callee args _ =>
      match primitive? callee, args with
      | some (.special .template), _ => true
      | some (.special .function), .symbol _ :: _ => true
      | _, _ => false
  | _ => false

/-- What a function needs beyond its parameters, or a lazy cell for its
rest, resolves in the scope that was kept. -/
def KeptNamesResolve (σ : Store) : Value → Prop
  | .closure _ params body scope => ∀ name ∈ body.free, name ∉ params → σ.Resolves scope name
  | .lazyCell _ rest scope => ∀ name ∈ rest.free, σ.Resolves scope name
  | _ => True

/-- Nothing in the value is dynamic, and all that is kept for later with a
scope has its names there. -/
def Scoped (σ : Store) (v : Value) : Prop :=
  v.Everywhere fun u => u.isDynamic = false ∧ u.KeptNamesResolve σ

variable {σ τ : Store} {v : Value}

/-- What is in scope stays so as long as no name is lost. -/
theorem Scoped.mono (h : σ.NamesKept τ) (hv : v.Scoped σ) : v.Scoped τ := by
  refine Everywhere.mono (fun u hu => ⟨hu.1, ?_⟩) hv
  cases u with
  | closure serial params body scope =>
      exact fun name hname hparam => h.resolves (hu.2 name hname hparam)
  | lazyCell head rest scope => exact fun name hname => h.resolves (hu.2 name hname)
  | _ => exact trivial

end Value

/-- Everything that is bound anywhere is scoped. -/
def Store.Scoped (σ : Store) : Prop := σ.All fun v => v.Scoped σ

/-! ## The discipline -/

/-- Stored values are scoped, and code may be evaluated where its free names
resolve. -/
def scoping : Discipline where
  World := Store
  Le := Store.NamesKept
  Keeps w σ := σ.frames = w.frames ∧ w.Scoped
  Within _ _ := True
  Data w v := v.Scoped w
  Code w scope form := form.Scoped w ∧ ∀ name ∈ form.free, w.Resolves scope name
  Allowed f := ∀ name, f.fault ≠ .unresolved name

private theorem scoping_grows : scoping.Grows where
  le_refl := Store.NamesKept.refl
  le_trans := Store.NamesKept.trans
  within_mono _ _ := trivial
  data_mono hle hv := hv.mono hle
  code_mono hle h := ⟨h.1.mono hle, fun name hname => hle.resolves (h.2 name hname)⟩

/-- A frame with scoped bindings leaves all stored values scoped. -/
theorem Store.Scoped.addFrame {σ : Store} (hσ : σ.Scoped) {b : Bindings}
    (hb : ∀ name v, (name, v) ∈ b → v.Scoped σ) : (σ.addFrame b).Scoped :=
  (Store.All.addFrame hσ hb).mono fun _ hv => hv.mono (σ.namesKept_addFrame b)

private theorem Store.Scoped.define {σ : Store} (hσ : σ.Scoped) {v : Value} (hv : v.Scoped σ)
    (f : FrameId) (name : String) : (σ.define f name v).Scoped :=
  (Store.All.define hσ hv f name).mono fun _ hu => hu.mono (σ.namesKept_define f name v)

theorem Store.Scoped.congr {σ τ : Store} (hσ : σ.Scoped) (h : τ.frames = σ.frames) : τ.Scoped :=
  (Store.All.congr h hσ).mono fun _ hv => hv.mono (.of_frames_eq h)

private theorem scoping_storeLaws : scoping.StoreLaws where
  keeps_frames h hframes := ⟨hframes.trans h.1, h.2⟩
  lookup h _ hfind := (Store.All.congr h.1 h.2).of_find? hfind
  unbound := by
    intro w σ scope name h hcode hfind
    have hname : w.Resolves scope name := hcode.2 name (by simp [Value.free])
    have hkept : w.NamesKept σ := .of_frames_eq h.1
    exact absurd (hkept.resolves hname) (Store.not_resolves_of_find?_eq_none hfind)
  openInner := by
    intro w σ scope h _
    have hkept : w.NamesKept (σ.addFrame []) :=
      Store.NamesKept.trans (.of_frames_eq h.1) (σ.namesKept_addFrame [])
    refine ⟨σ.addFrame [], hkept, ⟨rfl, ?_⟩, fun form hcode => ⟨hcode.1.mono hkept, ?_⟩⟩
    · exact (h.2.congr h.1).addFrame (by simp)
    · exact fun name hname => (hkept.resolves (hcode.2 name hname)).inner _
  bindParams := by
    intro w σ serial params body captured args h hclosure hargs hlen
    have hσ : w.NamesKept σ := .of_frames_eq h.1
    have hkept : w.NamesKept (σ.addFrame (.ofParams params args)) :=
      hσ.trans (σ.namesKept_addFrame _)
    have hbody : body.Scoped w := hclosure.inside (by simp [Value.parts])
    refine ⟨σ.addFrame (.ofParams params args), hkept, ⟨rfl, ?_⟩, hbody.mono hkept, ?_⟩
    · refine (h.2.congr h.1).addFrame fun name v hv => ?_
      exact (hargs v (Bindings.mem_args_of_mem_ofParams hv)).mono hσ
    · intro name hname
      by_cases hparam : name ∈ params
      · refine Store.resolves_iff.mpr ⟨σ.frames.size, by simp [Scope.frames, Store.openInner], ?_⟩
        rw [Store.bindings_addFrame, if_pos rfl]
        exact (Bindings.mem_names_ofParams hlen).mpr hparam
      · exact (hkept.resolves (hclosure.here.2 name hname hparam)).inner _
  define := by
    intro w σ scope v name h _ hv
    have hσ : w.NamesKept σ := .of_frames_eq h.1
    refine ⟨σ.define scope.rootFrame name v, hσ.trans (σ.namesKept_define _ _ _), rfl, ?_⟩
    exact (h.2.congr h.1).define (hv.mono hσ) _ _

theorem scoping_dataLaws : scoping.DataLaws := by
  refine scoping.dataLaws_of_everywhere (fun _ _ => rfl) ?_ (fun _ _ => ⟨rfl, trivial⟩)
    (fun _ _ => ⟨rfl, trivial⟩) (fun _ _ _ _ hhere hrest => ⟨hrest, hhere.2⟩)
    (fun _ _ _ _ hrest => ⟨⟨rfl, hrest.2⟩, hrest.1⟩) ?_
  · intro w v hv
    cases v <;> first | exact ⟨rfl, trivial⟩ | cases hv
  · intro w head rest scope hkind _
    have hfree : rest.free = [] :=
      Value.free_of_isPending_eq_false (Value.isPending_eq_false_of_lazySequence hkind)
    refine ⟨rfl, ?_⟩
    show ∀ name ∈ rest.free, _
    simp [hfree]

private theorem scoping_codeLaws : scoping.CodeLaws where
  code_within _ := trivial
  code_self h _ := h.1
  call_args := by
    intro w scope callee args span p form h hp hall hform
    refine ⟨h.1.inside (List.mem_cons_of_mem _ hform), fun name hname => h.2 name ?_⟩
    rw [Value.free_call_of_evaluatesAll hp hall]
    exact Value.mem_freeAll.mpr ⟨form, hform, hname⟩
  call_other := by
    intro w scope callee args span h hp
    have hfree : (Value.call callee args span).free = callee.free ++ Value.freeAll args := by
      rw [Value.free, hp]
    have hnames := h.2
    simp only [hfree, List.mem_append] at hnames
    refine ⟨⟨h.1.inside (by simp [Value.parts]), fun name hname => hnames name (.inl hname)⟩, ?_⟩
    intro form hform
    refine ⟨h.1.inside (List.mem_cons_of_mem _ hform), fun name hname => hnames name (.inr ?_)⟩
    exact Value.mem_freeAll.mpr ⟨form, hform, hname⟩
  call_define := by
    intro w scope callee target form span h hp
    refine ⟨h.1.inside (by simp [Value.parts]), fun name hname => h.2 name ?_⟩
    rw [Value.free, hp]
    simpa [Value.freeOfDefinition, Value.freeAll] using hname
  call_apply := by
    intro w scope callee form sequence span h hp
    have hnames := h.2
    rw [Value.free, hp] at hnames
    simp only [Value.freeOfApplication, Value.freeAll, List.append_nil, List.mem_append] at hnames
    refine ⟨⟨h.1.inside (by simp [Value.parts]), fun name hname => hnames name (.inr hname)⟩, ?_⟩
    intro hnone
    refine ⟨h.1.inside (by simp [Value.parts]), fun name hname => hnames name (.inl ?_)⟩
    rw [hnone]
    exact hname
  call_function := by
    intro w scope callee params body span h hp
    have hstatic := h.1.here.1
    have hbody : body.Scoped w := h.1.inside (by simp [Value.parts])
    have hnotSymbol : params.kind ≠ .symbol := by
      cases params with
      | symbol name => simp [Value.isDynamic, hp] at hstatic
      | number n => cases n <;> simp [Value.kind, Number.kind]
      | _ => simp [Value.kind]
    refine ⟨fun hsymbol => absurd hsymbol hnotSymbol, fun serial names hread => ?_⟩
    have hread := hread hnotSymbol
    refine .intro ⟨rfl, ?_⟩ (List.forall_mem_singleton.mpr hbody)
    cases params with
    | vector items =>
        have hitems : Value.symbolNames items = names := Value.symbolNames_of_names hread
        have hnames := h.2
        rw [Value.free, hp] at hnames
        simp only [Value.freeOfFunction, Value.freeAll, List.append_nil, List.mem_filter,
          decide_eq_true_eq, hitems] at hnames
        exact fun name hname hparam => hnames name ⟨hname, hparam⟩
    | _ => cases hread
  call_template := by
    intro w scope callee params body span h hp
    have hstatic := h.1.here.1
    simp [Value.isDynamic, hp] at hstatic
  call_expand := by
    intro w scope callee args span params body _ _ htemplate _
    have hstatic := htemplate.here.1
    simp [Value.isDynamic] at hstatic
  range_call := by
    intro w scope low high _
    have hrange : primitive? (.symbol Operator.range.name) = some (.operator .range) :=
      Primitive.ofName?_name (.operator .range)
    refine ⟨Value.everywhere_range ⟨?_, trivial⟩ ⟨rfl, trivial⟩ fun _ => ⟨rfl, trivial⟩, ?_⟩
    · simp [Value.isDynamic, hrange]
    · rw [Value.free_call_of_evaluatesAll hrange rfl]
      simp [Value.freeAll, Value.free, Value.integer]
  inCall := by
    intro w scope callee args span shown f _ _ hf
    rcases hf with hallowed | ⟨fault, hlocal, rfl⟩
    · exact fun name => by rw [Failure.inCall_fault]; exact hallowed name
    · intro name hname
      rw [Failure.inCall_fault] at hname
      subst hname
      cases hlocal

/-- The evaluator keeps static scoping up. -/
theorem scoping_lawful : scoping.Lawful :=
  { scoping_grows, scoping_storeLaws, scoping_dataLaws, scoping_codeLaws with }

/-! ## Evaluation -/

/-- From a store in which all is scoped, a scoped form whose free names
resolve never fails over a name; its value and the store after it are scoped
again, and after a failure the store is. -/
theorem evaluate_never_unresolved {σ : Store} {scope : Scope} {form : Value} (hσ : σ.Scoped)
    (hform : form.Scoped σ) (hfree : ∀ name ∈ form.free, σ.Resolves scope name) (fuel : Nat) :
    match evaluate fuel form scope σ with
    | .done v τ => v.Scoped τ ∧ τ.Scoped
    | .failed f τ => (∀ name, f.fault ≠ .unresolved name) ∧ τ.Scoped
    | .exhausted => True := by
  have hsafe := scoping.evaluate_safe scoping_lawful fuel σ scope form ⟨hform, hfree⟩
  cases h : evaluate fuel form scope σ with
  | done v τ =>
      obtain ⟨w, -, hτ, hv⟩ := hsafe.done ⟨rfl, hσ⟩ h
      exact ⟨hv.mono (.of_frames_eq hτ.1), hτ.2.congr hτ.1⟩
  | failed f τ =>
      obtain ⟨hf, w, -, hτ⟩ := hsafe.failed ⟨rfl, hσ⟩ h
      exact ⟨hf, hτ.2.congr hτ.1⟩
  | exhausted => exact trivial

/-- A function with a parameter and a global name, called from outside. -/
theorem evaluate_never_unresolved_adder :
    let sum : Value := .call (.symbol "+") [.symbol "x", .symbol "y"] ⟨13, 20⟩
    let σ : Store := ⟨#[[("y", .integer 2), ("f", .closure 0 ["x"] sum (.global 0))]], 1, ""⟩
    let form : Value := .call (.symbol "f") [.integer 3] ⟨0, 5⟩
    σ.Scoped ∧ form.Scoped σ ∧ (∀ name ∈ form.free, σ.Resolves (.global 0) name) ∧
      ∃ τ, evaluate 3 form (.global 0) σ = .done (.integer 5) τ ∧ τ.Scoped := by
  intro sum σ form
  have hatom {v : Value} (h : v.isAtomic = true) : v.Scoped σ := scoping_dataLaws.atomic h
  have hform : form.Scoped σ := by
    have hparts : ∀ u ∈ form.parts, u.isAtomic = true := by decide
    exact .intro ⟨by decide, trivial⟩ fun u hu => hatom (hparts u hu)
  have hsum : sum.Scoped σ := by
    have hparts : ∀ u ∈ sum.parts, u.isAtomic = true := by decide
    exact .intro ⟨by decide, trivial⟩ fun u hu => hatom (hparts u hu)
  have hfree : ∀ name ∈ form.free, σ.Resolves (.global 0) name := by
    have hnames : form.free = ["f"] := by decide
    rw [hnames]
    exact List.forall_mem_singleton.mpr (by decide)
  have hσ : σ.Scoped := by
    rintro v ⟨f, name, hmem⟩
    match f with
    | 0 =>
        rcases List.mem_cons.mp hmem with h | h
        · cases h
          exact hatom rfl
        · cases List.mem_singleton.mp h
          refine .intro ⟨rfl, ?_⟩ (List.forall_mem_singleton.mpr hsum)
          have hnames : sum.free = ["x", "y"] := by decide
          show ∀ name ∈ sum.free, name ∉ ["x"] → σ.Resolves (.global 0) name
          rw [hnames]
          decide
    | n + 1 => cases hmem
  have hsafe := evaluate_never_unresolved hσ hform hfree 3
  exact ⟨hσ, hform, hfree, _, rfl, hsafe.2⟩

end LazyLisp
