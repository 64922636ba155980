import LazyLisp.Proofs.Mirror.Evaluation

/-!
# No binding hides a primitive

A primitive's name means the primitive wherever it is called.  A program may
bind it as any other name, in the global frame or as a parameter, and such a
binding is seen only by code that uses the name in another place than that of
a callee.  So over two stores that differ in what is bound to the name, and
nowhere else, code that only ever calls it runs in the same way.

The condition is on all code that can be run: the form itself, the bodies of
functions and templates, and deferred rests.  What a template is filled in with
is code, so the condition outlives it even if a parameter has the name.  Values
that are not run may hold the name anywhere.

## Main results

* `Value.CalleeOnly.substitute` — filling in a template keeps the name in
  callee position.
* `guarding_lawful` — so does an evaluation.
* `evaluate_sameBut` — the two evaluations are the same.
-/

namespace LazyLisp

open Evaluation

namespace Value

/-! ## Names in callee position -/

/-- What a value holds directly, other than the callee of a call. -/
def operands : Value → List Value
  | .call _ args _ => args
  | v => v.parts

/-- The name is used in callee position of calls only, at any depth. -/
def CalleeOnly (name : String) (v : Value) : Prop :=
  v ≠ .symbol name ∧ v.Everywhere fun u => .symbol name ∉ u.operands

/-- What is kept in the value to be run later uses the name in callee position
only. -/
def KeptCalleeOnly (name : String) : Value → Prop
  | .closure _ _ body _ | .template _ body => body.CalleeOnly name
  | .lazyCell _ rest _ => rest.isPending = true → rest.CalleeOnly name
  | _ => True

/-- All code that is kept in the value, at any depth, uses the name in callee
position only. -/
def Guarded (name : String) (v : Value) : Prop := v.Everywhere (KeptCalleeOnly name)

section CalleeOnly

variable {name : String} {v callee : Value} {args : List Value} {span : Span}

/-- An operand of code that calls the name only is such code. -/
theorem calleeOnly_of_mem_operands (h : v.Everywhere fun u => .symbol name ∉ u.operands)
    {u : Value} (hu : u ∈ v.operands) (hpart : u ∈ v.parts) : u.CalleeOnly name := by
  refine ⟨?_, h.inside hpart⟩
  rintro rfl
  exact h.here hu

private theorem CalleeOnly.arg (h : (Value.call callee args span).CalleeOnly name) {form : Value}
    (hform : form ∈ args) : form.CalleeOnly name :=
  calleeOnly_of_mem_operands h.2 hform (List.mem_cons_of_mem _ hform)

/-- A callee that is no symbol, or another one. -/
theorem CalleeOnly.head (h : (Value.call callee args span).CalleeOnly name)
    (hne : callee ≠ .symbol name) : callee.CalleeOnly name :=
  ⟨hne, h.2.inside (List.mem_cons_self ..)⟩

theorem CalleeOnly.guarded (h : v.CalleeOnly name) : v.Guarded name := by
  obtain ⟨-, h⟩ := h
  induction h with
  | @intro v here inside ih =>
      have hv : v.Everywhere fun u => .symbol name ∉ u.operands := .intro here inside
      refine .intro ?_ ih
      cases v with
      | closure serial params body scope =>
          exact calleeOnly_of_mem_operands hv (List.mem_singleton_self _)
            (List.mem_singleton_self _)
      | template params body =>
          exact calleeOnly_of_mem_operands hv (List.mem_singleton_self _)
            (List.mem_singleton_self _)
      | lazyCell head rest scope =>
          have hrest : rest ∈ [head, rest] := by simp
          exact fun _ => calleeOnly_of_mem_operands hv hrest hrest
      | _ => exact trivial

/-! ### Filling in a template -/

variable {forms : Bindings} {span : Span}

/-- Filling in gives a symbol only where the body has it. -/
theorem substitute_ne_symbol (hforms : ∀ key u, (key, u) ∈ forms → u.CalleeOnly name)
    (h : v ≠ .symbol name) : Template.substitute forms span v ≠ .symbol name := by
  cases v with
  | symbol key =>
      rw [Template.substitute]
      cases hfind : forms.find? key with
      | none => exact h
      | some u => exact (hforms key u (Bindings.mem_of_find? hfind)).1
  | call callee args span => exact nofun
  | vector items => exact nofun
  | _ => exact h

private theorem symbol_not_mem_substituteAll
    (hforms : ∀ key u, (key, u) ∈ forms → u.CalleeOnly name)
    {items : List Value} (h : .symbol name ∉ items) :
    .symbol name ∉ Template.substituteAll forms span items := by
  rw [Template.substituteAll_eq_map]
  intro hmem
  obtain ⟨u, hu, heq⟩ := List.mem_map.mp hmem
  have hne : u ≠ .symbol name := fun hname => h (hname ▸ hu)
  exact substitute_ne_symbol hforms hne heq

mutual

private theorem everywhere_substitute (hforms : ∀ key u, (key, u) ∈ forms → u.CalleeOnly name) :
    ∀ v : Value, (v.Everywhere fun u => .symbol name ∉ u.operands) →
      (Template.substitute forms span v).Everywhere fun u => .symbol name ∉ u.operands
  | .symbol key, h => by
      rw [Template.substitute]
      cases hfind : forms.find? key with
      | none => exact h
      | some u => exact (hforms key u (Bindings.mem_of_find? hfind)).2
  | .call callee args _, h => by
      rw [Template.substitute]
      refine .intro (symbol_not_mem_substituteAll hforms h.here) (List.forall_mem_cons.mpr ⟨?_, ?_⟩)
      · exact everywhere_substitute hforms callee (h.inside (by simp [parts]))
      · exact everywhere_substituteAll hforms args fun u hu => h.inside (by simp [parts, hu])
  | .vector items, h => by
      rw [Template.substitute]
      exact .intro (symbol_not_mem_substituteAll hforms h.here)
        (everywhere_substituteAll hforms items fun u hu => h.inside hu)
  | .number _, h | .boolean _, h | .string _, h | .pair _, h | .terminal, h | .nil, h
  | .closure _ _ _ _, h | .template _ _, h | .lastCell _, h | .lazyCell _ _ _, h => h

theorem everywhere_substituteAll (hforms : ∀ key u, (key, u) ∈ forms → u.CalleeOnly name) :
    ∀ items : List Value, (∀ u ∈ items, u.Everywhere fun u => .symbol name ∉ u.operands) →
      ∀ u ∈ Template.substituteAll forms span items,
        u.Everywhere fun u => .symbol name ∉ u.operands
  | [], _ => by simp [Template.substituteAll]
  | v :: rest, h => by
      obtain ⟨hv, hrest⟩ := List.forall_mem_cons.mp h
      rw [Template.substituteAll]
      exact List.forall_mem_cons.mpr
        ⟨everywhere_substitute hforms v hv, everywhere_substituteAll hforms rest hrest⟩

end

/-- Filling in a template keeps the name in callee position, even if a
parameter has that name. -/
theorem CalleeOnly.substitute (h : v.CalleeOnly name)
    (hforms : ∀ key u, (key, u) ∈ forms → u.CalleeOnly name) (span : Span) :
    (Template.substitute forms span v).CalleeOnly name :=
  ⟨substitute_ne_symbol hforms h.1, everywhere_substitute hforms v h.2⟩

end CalleeOnly

end Value

/-! ## Stores -/

namespace Store

variable {name : String} {σ τ : Store}

/-- Whatever is bound to another name keeps only code that calls the name. -/
def GuardedBut (name : String) (σ : Store) : Prop :=
  ∀ f other v, other ≠ name → (other, v) ∈ σ.bindings f → v.Guarded name

/-- The stores differ at most in what their frames bind to the name. -/
structure SameBut (name : String) (σ τ : Store) : Prop where
  size : τ.frames.size = σ.frames.size
  bindings : ∀ f other, other ≠ name → (τ.bindings f).find? other = (σ.bindings f).find? other
  closures : τ.closures = σ.closures
  printed : τ.printed = σ.printed

private theorem GuardedBut.congr (h : σ.GuardedBut name) (hframes : τ.frames = σ.frames) :
    τ.GuardedBut name :=
  fun f other v hne hmem => h f other v hne (bindings_congr hframes f ▸ hmem)

private theorem GuardedBut.addFrame (h : σ.GuardedBut name) {b : Bindings}
    (hb : ∀ key v, (key, v) ∈ b → v.Guarded name) : (σ.addFrame b).GuardedBut name := by
  intro f other v hne hmem
  rw [bindings_addFrame] at hmem
  split at hmem
  · exact hb other v hmem
  · exact h f other v hne hmem

private theorem GuardedBut.define (h : σ.GuardedBut name) {v : Value} (hv : v.Guarded name)
    (f : FrameId) (key : String) : (σ.define f key v).GuardedBut name := by
  intro g other u hne hmem
  rw [bindings_define] at hmem
  split at hmem
  · rcases Bindings.mem_put hmem with ⟨-, rfl⟩ | hold
    · exact hv
    · exact h g other u hne hold
  · exact h g other u hne hmem

/-- Other names have the same values everywhere. -/
theorem SameBut.find? (h : σ.SameBut name τ) {other : String} (hne : other ≠ name)
    (scope : Scope) : τ.find? other scope = σ.find? other scope := by
  induction scope with
  | global f => exact h.bindings f other hne
  | inner f outer ih => rw [find?_inner, find?_inner, h.bindings f other hne, ih]

private theorem SameBut.addFrame (h : σ.SameBut name τ) (b : Bindings) :
    (σ.addFrame b).SameBut name (τ.addFrame b) where
  size := by rw [size_addFrame, size_addFrame, h.size]
  bindings f other hne := by
    rw [bindings_addFrame, bindings_addFrame, h.size]
    split
    · rfl
    · exact h.bindings f other hne
  closures := h.closures
  printed := h.printed

private theorem SameBut.define (h : σ.SameBut name τ) (f : FrameId) (key : String) (v : Value) :
    (σ.define f key v).SameBut name (τ.define f key v) where
  size := by rw [size_define, size_define, h.size]
  bindings g other hne := by
    rw [bindings_define, bindings_define, h.size]
    split
    · by_cases hkey : key = other
      · rw [hkey, Bindings.find?_put_self, Bindings.find?_put_self]
      · rw [Bindings.find?_put_of_ne hkey, Bindings.find?_put_of_ne hkey, h.bindings g other hne]
    · exact h.bindings g other hne
  closures := h.closures
  printed := h.printed

end Store

/-! ## The discipline and the mirror -/

/-- All code that may be run uses the primitive's name in callee position
only. -/
def guarding (p : Primitive) : Discipline where
  World := Unit
  Le _ _ := True
  Keeps _ σ := σ.GuardedBut p.name
  Within _ _ := True
  Data _ v := v.Guarded p.name
  Code _ _ form := form.Guarded p.name ∧ (form.isPending = true → form.CalleeOnly p.name)
  Allowed _ := True

variable {p : Primitive}

/-- Code that calls the name only may be run. -/
theorem guarding_code {form : Value} (h : form.CalleeOnly p.name) (w : (guarding p).World)
    (scope : Scope) : (guarding p).Code w scope form :=
  ⟨h.guarded, fun _ => h⟩

private theorem guarding_grows : (guarding p).Grows where
  le_refl _ := trivial
  le_trans _ _ := trivial
  within_mono _ _ := trivial
  data_mono _ hv := hv
  code_mono _ h := h

private theorem guarding_storeLaws : (guarding p).StoreLaws where
  keeps_frames h hframes := Store.GuardedBut.congr h hframes
  lookup := by
    intro w σ scope name v h hcode hfind
    obtain ⟨f, -, hmem⟩ := Store.mem_bindings_of_find? hfind
    exact h f name v (fun hname => (hcode.2 rfl).1 (congrArg Value.symbol hname)) hmem
  unbound _ _ _ := trivial
  openInner h _ := ⟨(), trivial, Store.GuardedBut.addFrame h (by simp), fun _ hform => hform⟩
  bindParams := by
    intro w σ serial params body scope args h hclosure hargs _
    refine ⟨(), trivial, Store.GuardedBut.addFrame h fun key v hv => ?_, guarding_code ?_ () _⟩
    · exact hargs v (Bindings.mem_args_of_mem_ofParams hv)
    · exact hclosure.here
  define name h _ hv := ⟨(), trivial, Store.GuardedBut.define h hv _ name⟩

private theorem guarding_dataLaws : (guarding p).DataLaws := by
  refine (guarding p).dataLaws_of_everywhere (fun _ _ => rfl) ?_ (fun _ _ => trivial)
    (fun _ _ => trivial) (fun _ _ _ _ hhere hrest => ⟨hrest, hhere⟩)
    (fun _ _ _ _ hcode => ⟨hcode.2, hcode.1⟩) ?_
  · intro w v hv
    cases v <;> first | exact trivial | cases hv
  · intro w head rest scope hkind _ hpending
    rw [Value.isPending_eq_false_of_lazySequence hkind] at hpending
    cases hpending

private theorem guarding_codeLaws : (guarding p).CodeLaws where
  code_within _ := trivial
  code_self h _ := h.1
  call_args h _ _ hform := guarding_code ((h.2 rfl).arg hform) _ _
  call_other := by
    intro w scope callee args span h hp
    refine ⟨guarding_code ((h.2 rfl).head ?_) _ _,
      fun form hform => guarding_code ((h.2 rfl).arg hform) _ _⟩
    rintro rfl
    rw [primitive?, Primitive.ofName?_name] at hp
    cases hp
  call_define h _ := guarding_code ((h.2 rfl).arg (by simp)) _ _
  call_apply h _ :=
    ⟨guarding_code ((h.2 rfl).arg (by simp)) _ _,
      fun _ => guarding_code ((h.2 rfl).arg (by simp)) _ _⟩
  call_function := by
    intro w scope callee params body span h _
    have hbody : body.CalleeOnly p.name := (h.2 rfl).arg (by simp)
    exact ⟨fun _ => guarding_code ((h.2 rfl).arg (by simp)) _ _,
      fun _ _ _ => .intro hbody (List.forall_mem_singleton.mpr hbody.guarded)⟩
  call_template := by
    intro w scope callee params body span h _
    have hbody : body.CalleeOnly p.name := (h.2 rfl).arg (by simp)
    exact ⟨fun _ => guarding_code ((h.2 rfl).arg (by simp)) _ _,
      fun _ => .intro hbody (List.forall_mem_singleton.mpr hbody.guarded)⟩
  call_expand := by
    intro w scope callee args span params body h _ htemplate _
    have hbody : body.CalleeOnly p.name := htemplate.here
    refine guarding_code (hbody.substitute (fun key u hu => ?_) span) _ _
    exact (h.2 rfl).arg (Bindings.mem_args_of_mem_ofParams hu)
  range_call := by
    intro w scope low high _
    have hrange : (Operator.rangeCall low high).CalleeOnly p.name := by
      refine ⟨nofun, Value.everywhere_range ?_ ?_ fun n => ?_⟩
      · simp [Value.operands, Value.integer]
      · simp [Value.operands, Value.parts]
      · simp [Value.operands, Value.integer, Value.parts]
    exact guarding_code hrange _ _
  inCall _ _ _ := trivial

/-- The evaluator runs no other code. -/
theorem guarding_lawful (p : Primitive) : (guarding p).Lawful :=
  { guarding_grows, guarding_storeLaws, guarding_dataLaws, guarding_codeLaws with }

/-- The same scopes, over stores that differ in bindings of the name. -/
def besides (name : String) : Mirror where
  image scope := scope
  Linked := Store.SameBut name

theorem besides_value (name : String) (v : Value) : (besides name).value v = v :=
  Value.mapScopes_eq_self v fun _ _ => rfl

private theorem besides_values (name : String) (vs : List Value) :
    vs.map (besides name).value = vs := by
  rw [funext (besides_value name)]
  exact List.map_id vs

private theorem besides_bindings (name : String) (b : Bindings) :
    b.mapScopes (besides name).image = b :=
  Bindings.mapScopes_eq_self fun _ v _ => besides_value name v

private theorem besides_failure (name : String) (f : Failure) :
    f.mapScopes (besides name).image = f := by
  have hfault : f.fault.mapScopes (besides name).image = f.fault := by
    cases hcase : f.fault with
    | notCallable v => exact congrArg Fault.notCallable (besides_value name v)
    | _ => rfl
  have hcall (c : CallContext) :
      { c with args := c.args.map (besides name).value } = c := by
    rw [besides_values]
  rw [Failure.mapScopes, hfault, funext hcall, Option.map_id']

private theorem besides_lawful (p : Primitive) : (besides p.name).Lawful (guarding p) where
  closure _ := trivial
  root _ := rfl
  lookup := by
    intro w σ τ scope name _ hcode hlink
    have hne : name ≠ p.name := fun hname => (hcode.2 rfl).1 (congrArg Value.symbol hname)
    rw [funext (besides_value p.name), Option.map_id']
    exact hlink.find? hne scope
  openInner := by
    intro w σ τ scope b _ _ hlink
    rw [besides_bindings]
    exact ⟨congrArg (Scope.inner · scope) hlink.size.symm, hlink.addFrame b⟩
  define := by
    intro w σ τ scope name v _ _ hlink
    rw [besides_value]
    exact hlink.define _ name v
  newClosure hlink :=
    ⟨hlink.closures, hlink.size, hlink.bindings, congrArg (· + 1) hlink.closures, hlink.printed⟩
  print line hlink :=
    ⟨hlink.size, hlink.bindings, hlink.closures, congrArg (· ++ line ++ "\n") hlink.printed⟩

/-! ## Evaluation -/

/-- The evaluations end in the same way, in stores that differ at most in what
their frames bind to the name; or neither ends. -/
inductive Outcome.SameBut (name : String) : Outcome Failure Value → Outcome Failure Value → Prop
    where
  | done (v : Value) {σ τ : Store} (h : σ.SameBut name τ) : SameBut name (.done v σ) (.done v τ)
  | failed (f : Failure) {σ τ : Store} (h : σ.SameBut name τ) :
      SameBut name (.failed f σ) (.failed f τ)
  | exhausted : SameBut name .exhausted .exhausted

/-- Code that uses a primitive's name in callee position only is evaluated in
the same way, with the same value or the same failure and with the same output,
over any two stores that differ in what is bound to that name, if the code that
is kept in them uses the name in this way too.  The stores after it differ no
further. -/
theorem evaluate_sameBut {p : Primitive} {σ τ : Store} {form : Value}
    (hσ : σ.GuardedBut p.name) (hform : form.CalleeOnly p.name) (hlink : σ.SameBut p.name τ)
    (scope : Scope) (fuel : Nat) :
    Outcome.SameBut p.name (evaluate fuel form scope σ) (evaluate fuel form scope τ) := by
  have hends := Discipline.evaluate_mirrors (guarding_lawful p) (besides_lawful p) fuel () scope
    form (guarding_code hform () scope) σ τ hσ hlink
  rw [besides_value] at hends
  show Outcome.SameBut p.name _ (evaluate fuel form ((besides p.name).image scope) τ)
  generalize evaluate fuel form scope σ = o,
    evaluate fuel form ((besides p.name).image scope) τ = o' at hends ⊢
  cases hends with
  | done v h =>
      rw [besides_value]
      exact .done v h
  | failed f h =>
      rw [besides_failure]
      exact .failed f h
  | exhausted => exact .exhausted

/-- A function that adds, called where the sign of addition is bound to a
number. -/
theorem evaluate_sameBut_add :
    let sum : Value := .call (.symbol "+") [.symbol "x", .integer 1] ⟨13, 20⟩
    let adder : Value := .closure 0 ["x"] sum (.global 0)
    let σ : Store := ⟨#[[("f", adder)]], 1, ""⟩
    let τ : Store := ⟨#[[("f", adder), ("+", .integer 9)]], 1, ""⟩
    let form : Value := .call (.symbol "f") [.integer 3] ⟨0, 5⟩
    σ.GuardedBut "+" ∧ form.CalleeOnly "+" ∧ σ.SameBut "+" τ ∧
      Outcome.SameBut "+" (evaluate 3 form (.global 0) σ) (evaluate 3 form (.global 0) τ) ∧
        ∃ υ, evaluate 3 form (.global 0) τ = .done (.integer 4) υ := by
  intro sum adder σ τ form
  have hatom {v : Value} (hparts : v.parts = []) (hargs : v.operands = []) :
      v.Everywhere fun u => .symbol "+" ∉ u.operands :=
    .of_parts_eq_nil hparts (by simp [hargs])
  have hsum : sum.CalleeOnly "+" := by
    refine ⟨nofun, .intro (by simp [sum, Value.operands, Value.integer]) ?_⟩
    simp only [sum, Value.parts, List.forall_mem_cons]
    exact ⟨hatom rfl rfl, hatom rfl rfl, hatom rfl rfl, by simp⟩
  have hform : form.CalleeOnly "+" := by
    refine ⟨nofun, .intro (by simp [form, Value.operands, Value.integer]) ?_⟩
    simp only [form, Value.parts, List.forall_mem_cons]
    exact ⟨hatom rfl rfl, hatom rfl rfl, by simp⟩
  have hσ : σ.GuardedBut "+" := by
    intro f other v _ hmem
    match f with
    | 0 =>
        cases List.mem_singleton.mp hmem
        exact .intro hsum (List.forall_mem_singleton.mpr hsum.guarded)
    | n + 1 => cases hmem
  have hlink : σ.SameBut "+" τ := by
    refine ⟨rfl, fun f other hne => ?_, rfl, rfl⟩
    match f with
    | 0 =>
        show (if "f" = other then some adder else
          if "+" = other then some (.integer 9) else none) =
            if "f" = other then some adder else none
        have hsign : ¬ "+" = other := fun heq => hne heq.symm
        rw [if_neg hsign]
    | n + 1 => rfl
  exact ⟨hσ, hform, hlink, evaluate_sameBut (p := .operator .add) hσ hform hlink (.global 0) 3,
    _, rfl⟩

end LazyLisp
