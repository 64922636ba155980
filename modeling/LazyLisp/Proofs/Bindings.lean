import LazyLisp.Store

/-!
# What a store binds

The evaluator changes frames in two ways only: it adds one with its
bindings, or it puts one binding into one that is there.  This module says
what either does to every single frame, to the values that are bound
anywhere and to the names that can be looked up from a scope.

## Main results

* `Store.bindings_addFrame`, `Store.bindings_define` — every frame after a
  change, in terms of the frames before.
* `Store.All.addFrame`, `Store.All.define` — a demand on all bound values
  needs a look at the new ones only.
* `Store.resolves_iff` — a name resolves if some frame of the chain has it,
  so that it goes on to resolve while no frame loses a name.
-/

namespace LazyLisp

/-! ## Bindings of one frame -/

namespace Bindings

variable {name : String} {v : Value} {b : Bindings}

/-- What is found was bound. -/
theorem mem_of_find? (h : find? name b = some v) : (name, v) ∈ b := by
  induction b with
  | nil => cases h
  | cons entry rest ih =>
      obtain ⟨other, u⟩ := entry
      by_cases hname : other = name
      · simp only [find?, if_pos hname, Option.some.injEq] at h
        simp [hname, h]
      · simp only [find?, if_neg hname] at h
        exact List.mem_cons_of_mem _ (ih h)

/-- Something is found exactly under the names that are bound. -/
theorem isSome_find?_iff : (find? name b).isSome = true ↔ name ∈ b.names := by
  induction b with
  | nil => simp [find?, names]
  | cons entry rest ih =>
      obtain ⟨other, u⟩ := entry
      by_cases hname : other = name
      · simp [find?, names, hname]
      · have hne : name ≠ other := fun h => hname h.symm
        simpa [find?, names, hname, hne] using ih

/-- After a binding is put, each pair is the new one or was there before. -/
theorem mem_put {key : String} {value : Value} (h : (name, v) ∈ put key value b) :
    (name = key ∧ v = value) ∨ (name, v) ∈ b := by
  induction b with
  | nil => simpa [put] using h
  | cons entry rest ih =>
      obtain ⟨other, u⟩ := entry
      by_cases hkey : other = key
      · simp only [put, if_pos hkey, List.mem_cons, Prod.mk.injEq] at h
        exact h.imp id (List.mem_cons_of_mem _)
      · simp only [put, if_neg hkey, List.mem_cons] at h
        rcases h with hhead | hrest
        · exact .inr (List.mem_cons.mpr (.inl hhead))
        · exact (ih hrest).imp id (List.mem_cons_of_mem _)

/-- Putting a binding adds its name and removes none. -/
theorem mem_names_put {key : String} {value : Value} :
    name ∈ (put key value b).names ↔ name = key ∨ name ∈ b.names := by
  rw [← isSome_find?_iff, ← isSome_find?_iff]
  by_cases hkey : key = name
  · subst hkey
    simp
  · have hne : name ≠ key := fun h => hkey h.symm
    simp [find?_put_of_ne hkey, hne]

/-- Putting in the pairs of a list in turn binds their values and nothing
else that was not bound. -/
private theorem mem_foldl_put (entries : List (String × Value)) :
    ∀ b : Bindings, (name, v) ∈ entries.foldl (fun b entry => put entry.1 entry.2 b) b →
      (name, v) ∈ entries ∨ (name, v) ∈ b := by
  induction entries with
  | nil => exact fun b h => .inr h
  | cons entry rest ih =>
      intro b h
      rcases ih _ h with hrest | hput
      · exact .inl (List.mem_cons_of_mem _ hrest)
      · rcases mem_put hput with ⟨hname, hv⟩ | hb
        · exact .inl (by simp [hname, hv])
        · exact .inr hb

private theorem mem_names_foldl_put (entries : List (String × Value)) :
    ∀ b : Bindings,
      name ∈ names (entries.foldl (fun b entry => put entry.1 entry.2 b) b) ↔
        name ∈ entries.map Prod.fst ∨ name ∈ b.names := by
  induction entries with
  | nil => simp
  | cons entry rest ih =>
      intro b
      rw [List.foldl_cons, ih, mem_names_put, List.map_cons, List.mem_cons]
      constructor
      · rintro (h | h | h)
        · exact .inl (.inr h)
        · exact .inl (.inl h)
        · exact .inr h
      · rintro ((h | h) | h)
        · exact .inr (.inl h)
        · exact .inl h
        · exact .inr (.inr h)

/-- Parameters are bound to arguments. -/
theorem mem_args_of_mem_ofParams {params : List String} {args : List Value}
    (h : (name, v) ∈ ofParams params args) : v ∈ args := by
  rcases mem_foldl_put _ _ h with hzip | hnil
  · exact (List.of_mem_zip hzip).2
  · cases hnil

/-- With an argument for each of them, all parameters are bound. -/
theorem mem_names_ofParams {params : List String} {args : List Value}
    (hlen : params.length = args.length) : name ∈ (ofParams params args).names ↔ name ∈ params := by
  have hfirst : (params.zip args).map Prod.fst = params :=
    List.map_fst_zip (Nat.le_of_eq hlen)
  rw [ofParams, mem_names_foldl_put, hfirst]
  simp [names]

end Bindings

/-! ## Frames -/

namespace Store

variable {σ τ : Store} {f g : FrameId} {name : String} {v : Value} {b : Bindings} {scope : Scope}

theorem bindings_congr (h : τ.frames = σ.frames) (f : FrameId) : τ.bindings f = σ.bindings f := by
  simp only [bindings, h]

/-- A frame that is not there binds nothing. -/
theorem bindings_of_size_le (h : σ.frames.size ≤ f) : σ.bindings f = [] := by
  simp only [bindings, Array.getElem?_eq_none h, Option.getD_none]

/-- A new frame holds its bindings, and all others are as they were. -/
theorem bindings_addFrame (σ : Store) (b : Bindings) (f : FrameId) :
    (σ.addFrame b).bindings f = if f = σ.frames.size then b else σ.bindings f := by
  simp only [bindings, addFrame, Array.getElem?_push]
  split <;> rfl

/-- A definition puts one binding into one frame, if that frame is there. -/
theorem bindings_define (σ : Store) (f : FrameId) (name : String) (v : Value) (g : FrameId) :
    (σ.define f name v).bindings g =
      if f = g ∧ g < σ.frames.size then (σ.bindings g).put name v else σ.bindings g := by
  simp only [bindings, define, Array.getElem?_modify]
  by_cases hf : f = g
  · by_cases hg : g < σ.frames.size
    · simp [hf, hg]
    · simp [hg]
  · simp [hf]

theorem bindings_define_of_ne (h : f ≠ g) : (σ.define f name v).bindings g = σ.bindings g := by
  rw [bindings_define, if_neg fun hfg => h hfg.1]

/-- No frame is added by a definition. -/
theorem size_define : (σ.define f name v).frames.size = σ.frames.size := by
  simp [define]

theorem size_addFrame : (σ.addFrame b).frames.size = σ.frames.size + 1 := by
  simp [addFrame]

/-- A new frame is not the global one. -/
theorem find?_global_addFrame (h : g < σ.frames.size) (b : Bindings) (name : String) :
    (σ.addFrame b).find? name (.global g) = σ.find? name (.global g) := by
  rw [find?, find?, bindings_addFrame, if_neg (Nat.ne_of_lt h)]

/-- What a global scope finds after a definition in its frame. -/
theorem find?_global_define (h : g < σ.frames.size) (name key : String) (v : Value) :
    (σ.define g key v).find? name (.global g) =
      if key = name then some v else σ.find? name (.global g) := by
  rw [find?, find?, bindings_define, if_pos ⟨rfl, h⟩]
  by_cases hkey : key = name
  · rw [if_pos hkey, hkey, Bindings.find?_put_self]
  · rw [if_neg hkey, Bindings.find?_put_of_ne hkey]

/-! ## Values bound somewhere -/

/-- The value is bound to some name in some frame. -/
def Holds (σ : Store) (v : Value) : Prop := ∃ f name, (name, v) ∈ σ.bindings f

private theorem Holds.congr (hframes : τ.frames = σ.frames) (h : τ.Holds v) : σ.Holds v := by
  obtain ⟨f, name, hmem⟩ := h
  exact ⟨f, name, bindings_congr hframes f ▸ hmem⟩

/-- What a name means in a scope is bound in one of the scope's frames. -/
theorem mem_bindings_of_find? (h : σ.find? name scope = some v) :
    ∃ f ∈ scope.frames, (name, v) ∈ σ.bindings f := by
  induction scope with
  | global f => exact ⟨f, by simp [Scope.frames], Bindings.mem_of_find? h⟩
  | inner f outer ih =>
      rw [find?_inner] at h
      cases hf : (σ.bindings f).find? name with
      | some u =>
          rw [hf, Option.some_or] at h
          cases h
          exact ⟨f, by simp [Scope.frames], Bindings.mem_of_find? hf⟩
      | none =>
          rw [hf, Option.none_or] at h
          obtain ⟨g, hg, hmem⟩ := ih h
          exact ⟨g, by simp [Scope.frames, hg], hmem⟩

/-- Every value that is bound anywhere meets the demand. -/
def All (P : Value → Prop) (σ : Store) : Prop := ∀ v, σ.Holds v → P v

namespace All

variable {P Q : Value → Prop}

/-- Nothing is bound in the empty store. -/
theorem empty : All P .empty := by
  rintro v ⟨f, name, hmem⟩
  cases hmem

/-- A weaker demand is met as well. -/
theorem mono (hPQ : ∀ v, P v → Q v) (h : σ.All P) : σ.All Q := fun v hv => hPQ v (h v hv)

/-- The demand is on frames, not on what was printed or counted. -/
theorem congr (hframes : τ.frames = σ.frames) (h : σ.All P) : τ.All P :=
  fun v hv => h v (hv.congr hframes)

/-- Whatever is looked up meets the demand. -/
theorem of_find? (h : σ.All P) (hfind : σ.find? name scope = some v) : P v := by
  obtain ⟨f, -, hmem⟩ := mem_bindings_of_find? hfind
  exact h v ⟨f, name, hmem⟩

/-- A new frame keeps the demand if what it binds meets it. -/
theorem addFrame (h : σ.All P) (hb : ∀ name v, (name, v) ∈ b → P v) : (σ.addFrame b).All P := by
  rintro v ⟨f, name, hmem⟩
  rw [bindings_addFrame] at hmem
  split at hmem
  · exact hb name v hmem
  · exact h v ⟨f, name, hmem⟩

/-- A definition keeps the demand if its value meets it. -/
theorem define (h : σ.All P) (hv : P v) (f : FrameId) (name : String) :
    (σ.define f name v).All P := by
  rintro u ⟨g, key, hmem⟩
  rw [bindings_define] at hmem
  split at hmem
  · rcases Bindings.mem_put hmem with ⟨-, rfl⟩ | hold
    · exact hv
    · exact h u ⟨g, key, hold⟩
  · exact h u ⟨g, key, hmem⟩

end All

/-! ## Names that resolve -/

/-- The name has a value in the scope. -/
def Resolves (σ : Store) (scope : Scope) (name : String) : Prop :=
  (σ.find? name scope).isSome = true

instance : Decidable (σ.Resolves scope name) :=
  inferInstanceAs (Decidable ((σ.find? name scope).isSome = true))

/-- A name resolves if one of the frames on the way to the global one binds it. -/
theorem resolves_iff : σ.Resolves scope name ↔ ∃ f ∈ scope.frames, name ∈ (σ.bindings f).names := by
  unfold Resolves
  induction scope with
  | global f => simp [find?, Scope.frames, Bindings.isSome_find?_iff]
  | inner f outer ih =>
      rw [find?_inner, Option.isSome_or, Bool.or_eq_true, Bindings.isSome_find?_iff, ih]
      simp [Scope.frames]

/-- A scope inside another one resolves all that the outer one does. -/
theorem Resolves.inner {outer : Scope} (h : σ.Resolves outer name) (f : FrameId) :
    σ.Resolves (.inner f outer) name := by
  obtain ⟨g, hg, hmem⟩ := resolves_iff.mp h
  exact resolves_iff.mpr ⟨g, List.mem_cons_of_mem _ hg, hmem⟩

/-- A name that is not found resolves nowhere on the chain. -/
theorem not_resolves_of_find?_eq_none (h : σ.find? name scope = none) :
    ¬ σ.Resolves scope name := by
  simp [Resolves, h]

/-- No frame of the first store has a name that the second has lost. -/
def NamesKept (σ τ : Store) : Prop := ∀ f, (σ.bindings f).names ⊆ (τ.bindings f).names

theorem NamesKept.refl (σ : Store) : σ.NamesKept σ := fun _ => List.Subset.refl _

theorem NamesKept.trans {ρ : Store} (h : ρ.NamesKept σ) (h' : σ.NamesKept τ) : ρ.NamesKept τ :=
  fun f => List.Subset.trans (h f) (h' f)

/-- Stores with the same frames bind the same names. -/
theorem NamesKept.of_frames_eq (h : τ.frames = σ.frames) : σ.NamesKept τ :=
  fun f => by rw [bindings_congr h]; exact List.Subset.refl _

/-- A name that once resolved goes on resolving. -/
theorem NamesKept.resolves (h : σ.NamesKept τ) (hname : σ.Resolves scope name) :
    τ.Resolves scope name := by
  obtain ⟨f, hf, hmem⟩ := resolves_iff.mp hname
  exact resolves_iff.mpr ⟨f, hf, h f hmem⟩

/-- A new frame takes no name away. -/
theorem namesKept_addFrame (σ : Store) (b : Bindings) : σ.NamesKept (σ.addFrame b) := by
  intro f name hname
  rw [bindings_addFrame]
  split
  · rename_i hf
    rw [bindings_of_size_le (Nat.le_of_eq hf.symm)] at hname
    cases hname
  · exact hname

/-- A definition takes no name away; it may give it another value. -/
theorem namesKept_define (σ : Store) (f : FrameId) (name : String) (v : Value) :
    σ.NamesKept (σ.define f name v) := by
  intro g key hkey
  rw [bindings_define]
  split
  · exact Bindings.mem_names_put.mpr (.inr hkey)
  · exact hkey

end Store

end LazyLisp
