import LazyLisp.Proofs.Discipline.Evaluation
import LazyLisp.Proofs.Discipline.Parts

/-!
# Trees of frames

The scopes that a run has opened make up trees: every frame has one scope
that it is the innermost frame of, and the frames around it are fixed with
it.  What is bound in a frame may have scopes kept in it, and these belong to
the tree of that frame.  So an evaluation never gets out of the tree that it
was started in, and as definitions go to the root of a tree, that is the one
frame it changes.

## Main results

* `Store.ChangesOnly` — the store after a run differs in one frame and in new
  ones only.
* `Forest` — the invariant of all scopes that were opened.
* `tree_lawful` — the evaluator stays in its tree and changes the root of it
  only.
-/

namespace LazyLisp

/-! ## Scopes kept in values -/

namespace Value

/-- The scope that a function or a lazy cell keeps. -/
def keptScope? : Value → Option Scope
  | .closure _ _ _ scope | .lazyCell _ _ scope => some scope
  | _ => none

/-- The scope is kept in the value, at any depth. -/
inductive Keeps (scope : Scope) : Value → Prop where
  | here {v : Value} (h : v.keptScope? = some scope) : Keeps scope v
  | inside {u v : Value} (hu : u ∈ v.parts) (h : Keeps scope u) : Keeps scope v

/-- All scopes kept in the value, at any depth, meet the demand. -/
def KeepsOnly (P : Scope → Prop) (v : Value) : Prop :=
  v.Everywhere fun u => ∀ scope, u.keptScope? = some scope → P scope

variable {P Q : Scope → Prop} {v : Value}

/-- Scopes that meet a demand meet a weaker one. -/
theorem KeepsOnly.mono (hPQ : ∀ scope, P scope → Q scope) (h : v.KeepsOnly P) : v.KeepsOnly Q :=
  Everywhere.mono (fun _ hu scope hscope => hPQ scope (hu scope hscope)) h

/-- Each scope that a value keeps is one of the allowed ones. -/
theorem KeepsOnly.of_keeps {scope : Scope} (h : v.KeepsOnly P) (hv : v.Keeps scope) : P scope := by
  induction hv with
  | here hscope => exact h.here _ hscope
  | inside hu _ ih => exact ih (h.inside hu)

/-- Nothing is kept in a form that was read. -/
theorem Written.keepsOnly (h : v.Written) : v.KeepsOnly P := by
  refine Everywhere.mono (fun u hu scope hscope => ?_) h
  cases u <;> first | (cases hscope; done) | cases hu

end Value

/-! ## Changes in one frame -/

/-- The second store has come from the first one by adding frames and by
binding names in one frame. -/
structure Store.ChangesOnly (frame : FrameId) (σ τ : Store) : Prop where
  size_le : σ.frames.size ≤ τ.frames.size
  bindings : ∀ f, f < σ.frames.size → f ≠ frame → τ.bindings f = σ.bindings f
  names : σ.NamesKept τ

namespace Store.ChangesOnly

variable {frame : FrameId} {ρ σ τ : Store}

/-- Nothing changes where no frame does. -/
theorem of_frames_eq (h : τ.frames = σ.frames) : σ.ChangesOnly frame τ where
  size_le := Nat.le_of_eq (congrArg Array.size h.symm)
  bindings f _ _ := bindings_congr h f
  names := .of_frames_eq h

/-- Two changes of the same frame are one. -/
theorem trans (h : ρ.ChangesOnly frame σ) (h' : σ.ChangesOnly frame τ) :
    ρ.ChangesOnly frame τ where
  size_le := Nat.le_trans h.size_le h'.size_le
  bindings f hf hne := by
    rw [h'.bindings f (Nat.lt_of_lt_of_le hf h.size_le) hne, h.bindings f hf hne]
  names := h.names.trans h'.names

/-- A new frame changes no other. -/
theorem addFrame (frame : FrameId) (σ : Store) (b : Bindings) :
    σ.ChangesOnly frame (σ.addFrame b) where
  size_le := Nat.le.intro size_addFrame.symm
  bindings f hf _ := by rw [bindings_addFrame, if_neg (Nat.ne_of_lt hf)]
  names := σ.namesKept_addFrame b

private theorem define (frame : FrameId) (σ : Store) (name : String) (v : Value) :
    σ.ChangesOnly frame (σ.define frame name v) where
  size_le := Nat.le_of_eq size_define.symm
  bindings _ _ hne := bindings_define_of_ne fun h => hne h.symm
  names := σ.namesKept_define frame name v

end Store.ChangesOnly

/-! ## The forest of all scopes -/

/-- The scopes that have been opened over a store. -/
structure Forest (opened : Scope → Prop) (σ : Store) : Prop where
  frame_lt : ∀ {s}, opened s → s.frame < σ.frames.size
  /-- A frame has one scope only, and so one place in its tree. -/
  unique : ∀ {a b}, opened a → opened b → a.frame = b.frame → a = b
  outer : ∀ {f s}, opened (.inner f s) → opened s
  complete : ∀ {f}, f < σ.frames.size → ∃ s, opened s ∧ s.frame = f
  /-- What is bound in a frame keeps scopes of the same tree. -/
  kept : ∀ {s name v}, opened s → (name, v) ∈ σ.bindings s.frame →
    v.KeepsOnly fun c => opened c ∧ c.rootFrame = s.rootFrame

namespace Forest

variable {opened : Scope → Prop} {σ τ : Store} {s c : Scope} {f : FrameId}

/-- The empty store is a forest without trees. -/
theorem empty : Forest (fun _ => False) .empty where
  frame_lt := nofun
  unique := nofun
  outer := nofun
  complete hf := absurd hf (Nat.not_lt_zero _)
  kept := nofun

theorem congr (h : Forest opened σ) (hframes : τ.frames = σ.frames) : Forest opened τ where
  frame_lt hs := by rw [hframes]; exact h.frame_lt hs
  unique := h.unique
  outer := h.outer
  complete hf := h.complete (by rwa [hframes] at hf)
  kept hs hmem := h.kept hs (by rwa [Store.bindings_congr hframes] at hmem)

/-- With a scope its global scope has been opened. -/
theorem root (h : Forest opened σ) (hs : opened s) : opened s.root := by
  induction s with
  | global f => exact hs
  | inner f outer ih => exact ih (h.outer hs)

/-- Every frame of a scope has a scope of its own in the same tree. -/
theorem of_mem_frames (h : Forest opened σ) (hs : opened s) (hf : f ∈ s.frames) :
    ∃ c, opened c ∧ c.frame = f ∧ c.rootFrame = s.rootFrame := by
  induction s with
  | global g => exact ⟨.global g, hs, (List.mem_singleton.mp hf).symm, rfl⟩
  | inner g outer ih =>
      rcases List.mem_cons.mp hf with rfl | hf
      · exact ⟨.inner f outer, hs, rfl, rfl⟩
      · exact ih (h.outer hs) hf

/-- A frame that a scope has besides its root is the innermost one of a scope
inside another. -/
theorem inner_of_mem_frames (h : Forest opened σ) (hs : opened s) (hf : f ∈ s.frames)
    (hne : f ≠ s.rootFrame) : ∃ outer, opened (.inner f outer) := by
  induction s with
  | global g => exact absurd (List.mem_singleton.mp hf) hne
  | inner g outer ih =>
      rcases List.mem_cons.mp hf with rfl | hf
      · exact ⟨outer, hs⟩
      · exact ih (h.outer hs) hf hne

/-- A frame inside another one is the root of no tree. -/
theorem ne_rootFrame (h : Forest opened σ) {outer : Scope} (hf : opened (.inner f outer))
    (hs : opened s) : f ≠ s.rootFrame := by
  intro heq
  cases h.unique hf (h.root hs) heq

/-- A tree has no frame in common with another one. -/
theorem ne_rootFrame_of_mem_frames (h : Forest opened σ) (hs : opened s) (hc : opened c)
    (hne : c.rootFrame ≠ s.rootFrame) (hf : f ∈ c.frames) : f ≠ s.rootFrame := by
  rintro rfl
  obtain ⟨b, hb, hframe, hroot⟩ := h.of_mem_frames hc hf
  rw [h.unique hb (h.root hs) hframe] at hroot
  exact hne hroot.symm

/-- All frames of an opened scope are in the store. -/
theorem lt_of_mem_frames (h : Forest opened σ) (hs : opened s) (hf : f ∈ s.frames) :
    f < σ.frames.size := by
  obtain ⟨c, hc, rfl, -⟩ := h.of_mem_frames hs hf
  exact h.frame_lt hc

/-- What is bound keeps opened scopes only. -/
theorem opened_of_keeps (h : Forest opened σ) {v : Value} (hv : σ.Holds v) (hs : v.Keeps s) :
    opened s := by
  obtain ⟨f, name, hmem⟩ := hv
  by_cases hf : f < σ.frames.size
  · obtain ⟨c, hc, rfl⟩ := h.complete hf
    exact ((h.kept hc hmem).of_keeps hs).1
  · rw [Store.bindings_of_size_le (Nat.le_of_not_lt hf)] at hmem
    cases hmem

/-- What a name means in a scope keeps scopes of the same tree. -/
theorem keepsOnly_of_find? (h : Forest opened σ) (hs : opened s) {name : String} {v : Value}
    (hfind : σ.find? name s = some v) :
    v.KeepsOnly fun c => opened c ∧ c.rootFrame = s.rootFrame := by
  obtain ⟨f, hf, hmem⟩ := Store.mem_bindings_of_find? hfind
  obtain ⟨c, hc, rfl, hroot⟩ := h.of_mem_frames hs hf
  rw [← hroot]
  exact h.kept hc hmem

/-- A scope with a new innermost frame may be opened inside any other one,
or on its own. -/
theorem addFrame (h : Forest opened σ) {new : Scope} (hnew : new.frame = σ.frames.size)
    (houter : ∀ f s, new = .inner f s → opened s) {b : Bindings}
    (hb : ∀ name v, (name, v) ∈ b →
      v.KeepsOnly fun c => opened c ∧ c.rootFrame = new.rootFrame) :
    Forest (fun s => opened s ∨ s = new) (σ.addFrame b) where
  frame_lt := by
    intro s hs
    rw [Store.size_addFrame]
    rcases hs with hs | rfl
    · exact Nat.lt_succ_of_lt (h.frame_lt hs)
    · rw [hnew]
      exact Nat.lt_succ_self _
  unique := by
    rintro a b (ha | rfl) (hb | rfl) hframe
    · exact h.unique ha hb hframe
    · exact absurd (h.frame_lt ha) (by rw [hframe, hnew]; exact Nat.lt_irrefl _)
    · exact absurd (h.frame_lt hb) (by rw [← hframe, hnew]; exact Nat.lt_irrefl _)
    · rfl
  outer := by
    rintro f s (hs | hs)
    · exact .inl (h.outer hs)
    · exact .inl (houter f s hs.symm)
  complete := by
    intro f hf
    rw [Store.size_addFrame] at hf
    rcases Nat.lt_or_ge f σ.frames.size with hlt | hge
    · obtain ⟨s, hs, hframe⟩ := h.complete hlt
      exact ⟨s, .inl hs, hframe⟩
    · exact ⟨new, .inr rfl, hnew.trans (Nat.le_antisymm hge (Nat.le_of_lt_succ hf))⟩
  kept := by
    intro s name v hs hmem
    rw [Store.bindings_addFrame] at hmem
    rcases hs with hs | rfl
    · rw [if_neg (Nat.ne_of_lt (h.frame_lt hs))] at hmem
      exact (h.kept hs hmem).mono fun c hc => ⟨.inl hc.1, hc.2⟩
    · rw [if_pos hnew] at hmem
      exact (hb name v hmem).mono fun c hc => ⟨.inl hc.1, hc.2⟩

/-- A definition in a tree keeps the forest if its value keeps scopes of this tree
only. -/
theorem define (h : Forest opened σ) (hs : opened s) (name : String) {v : Value}
    (hv : v.KeepsOnly fun c => opened c ∧ c.rootFrame = s.rootFrame) :
    Forest opened (σ.define s.frame name v) where
  frame_lt hc := by rw [Store.size_define]; exact h.frame_lt hc
  unique := h.unique
  outer := h.outer
  complete hf := h.complete (by rwa [Store.size_define] at hf)
  kept := by
    intro c key u hc hmem
    rw [Store.bindings_define] at hmem
    split at hmem
    · rename_i hframe
      rcases Bindings.mem_put hmem with ⟨-, rfl⟩ | hold
      · rw [h.unique hc hs hframe.1.symm]
        exact hv
      · exact h.kept hc hold
    · exact h.kept hc hmem

end Forest

/-! ## The discipline -/

/-- A store and the scopes that have been opened over it. -/
structure Woods where
  opened : Scope → Prop
  store : Store
  forest : Forest opened store

/-- The scope is open in the tree with this root. -/
def Woods.InTree (root : FrameId) (w : Woods) (s : Scope) : Prop :=
  w.opened s ∧ s.rootFrame = root

/-- Data and code of one tree keep scopes of that tree only, and nothing but
its root changes. -/
def tree (root : FrameId) : Discipline where
  World := Woods
  Le u w := (∀ s, u.opened s → w.opened s) ∧ u.store.ChangesOnly root w.store
  Keeps w σ := σ.frames = w.store.frames
  Within w s := w.InTree root s
  Data w v := v.KeepsOnly (w.InTree root)
  Code w s form := w.InTree root s ∧ form.KeepsOnly (w.InTree root)
  Allowed _ := True

variable {r : FrameId}

theorem Woods.InTree.root {w : Woods} {s : Scope} (h : w.InTree r s) : w.InTree r s.root :=
  ⟨w.forest.root h.1, h.2⟩

/-- Of the scopes of a tree none is ever lost. -/
theorem tree_grows : (tree r).Grows where
  le_refl _ := ⟨fun _ hs => hs, .of_frames_eq rfl⟩
  le_trans h h' := ⟨fun s hs => h'.1 s (h.1 s hs), h.2.trans h'.2⟩
  within_mono hle h := ⟨hle.1 _ h.1, h.2⟩
  data_mono hle h := h.mono fun _ hs => ⟨hle.1 _ hs.1, hs.2⟩
  code_mono hle h := ⟨⟨hle.1 _ h.1.1, h.1.2⟩, h.2.mono fun _ hs => ⟨hle.1 _ hs.1, hs.2⟩⟩

/-- Opening a scope in the tree, with bindings of the tree. -/
private theorem openInner_tree {w : Woods} {σ : Store} {s : Scope}
    (h : σ.frames = w.store.frames) (hs : w.InTree r s) {b : Bindings}
    (hb : ∀ name v, (name, v) ∈ b → v.KeepsOnly (w.InTree r)) :
    ∃ w' : Woods, (tree r).Le w w' ∧ (tree r).Keeps w' (σ.openInner s b).2 ∧
      w'.InTree r (σ.openInner s b).1 := by
  have hforest : Forest (fun c => w.opened c ∨ c = (σ.openInner s b).1) (σ.addFrame b) := by
    refine (w.forest.congr h).addFrame rfl ?_ fun name v hv => (hb name v hv).mono fun c hc => ?_
    · intro f outer heq
      cases heq
      exact hs.1
    · exact ⟨hc.1, hc.2.trans hs.2.symm⟩
  have hchanges : w.store.ChangesOnly r (σ.addFrame b) := .trans (.of_frames_eq h) (.addFrame r σ b)
  exact ⟨⟨_, _, hforest⟩, ⟨fun c hc => .inl hc, hchanges⟩, rfl, .inr rfl, hs.2⟩

private theorem tree_storeLaws : (tree r).StoreLaws where
  keeps_frames h hframes := hframes.trans h
  lookup := by
    intro w σ s name v h hcode hfind
    have hkept := (w.forest.congr h).keepsOnly_of_find? hcode.1.1 hfind
    exact hkept.mono fun c hc => ⟨hc.1, hc.2.trans hcode.1.2⟩
  unbound _ _ _ := trivial
  openInner := by
    intro w σ s h hs
    obtain ⟨w', hle, hkeeps, hinner⟩ := openInner_tree h hs (b := []) (by simp)
    exact ⟨w', hle, hkeeps, fun form hform => ⟨hinner, tree_grows.data_mono hle hform.2⟩⟩
  bindParams := by
    intro w σ serial params body s args h hclosure hargs _
    have hs : w.InTree r s := hclosure.here s rfl
    have hbody : body.KeepsOnly (w.InTree r) := hclosure.inside (List.mem_singleton_self _)
    obtain ⟨w', hle, hkeeps, hinner⟩ := openInner_tree h hs (b := .ofParams params args)
      fun name v hv => hargs v (Bindings.mem_args_of_mem_ofParams hv)
    exact ⟨w', hle, hkeeps, hinner, tree_grows.data_mono hle hbody⟩
  define := by
    intro w σ s v name h hs hv
    have hforest : Forest w.opened (σ.define s.rootFrame name v) := by
      refine (w.forest.congr h).define (w.forest.root hs.1) name (hv.mono fun c hc => ?_)
      exact ⟨hc.1, hc.2.trans hs.2.symm⟩
    have hchanges : w.store.ChangesOnly r (σ.define s.rootFrame name v) := by
      rw [hs.2]
      exact .trans (.of_frames_eq h) (.define r σ name v)
    exact ⟨⟨_, _, hforest⟩, ⟨fun c hc => hc, hchanges⟩, rfl⟩

private theorem tree_dataLaws : (tree r).DataLaws := by
  refine (tree r).dataLaws_of_everywhere (fun _ _ => rfl) ?_ (fun _ _ _ h => nomatch h)
    (fun _ _ _ h => nomatch h) ?_ ?_ ?_
  · intro w v hv s hs
    cases v <;> first | (cases hs; done) | cases hv
  · exact fun w head rest s hhere hrest => ⟨hhere s rfl, hrest⟩
  · exact fun w head rest s hcode => ⟨fun c hc => Option.some.inj hc ▸ hcode.1, hcode.2⟩
  · exact fun w head rest s _ hs c hc => Option.some.inj hc ▸ hs.root

private theorem tree_codeLaws : (tree r).CodeLaws where
  code_within h := h.1
  code_self h _ := h.2
  call_args h _ _ hform := ⟨h.1, h.2.inside (List.mem_cons_of_mem _ hform)⟩
  call_other h _ :=
    ⟨⟨h.1, h.2.inside (List.mem_cons_self ..)⟩,
      fun _ hform => ⟨h.1, h.2.inside (List.mem_cons_of_mem _ hform)⟩⟩
  call_define h _ := ⟨h.1, h.2.inside (by simp [Value.parts])⟩
  call_apply h _ :=
    ⟨⟨h.1, h.2.inside (by simp [Value.parts])⟩,
      fun _ => ⟨h.1, h.2.inside (by simp [Value.parts])⟩⟩
  call_function h _ :=
    ⟨fun _ => ⟨h.1, h.2.inside (by simp [Value.parts])⟩,
      fun _ _ _ => .intro (fun c hc => Option.some.inj hc ▸ h.1)
        (List.forall_mem_singleton.mpr (h.2.inside (by simp [Value.parts])))⟩
  call_template h _ :=
    ⟨fun _ => ⟨h.1, h.2.inside (by simp [Value.parts])⟩,
      fun _ => .intro (fun _ hc => nomatch hc)
        (List.forall_mem_singleton.mpr (h.2.inside (by simp [Value.parts])))⟩
  call_expand := by
    intro w s callee args span params body h _ htemplate _
    have hbody := htemplate.inside (List.mem_singleton_self body)
    refine ⟨h.1, Value.Everywhere.substitute ?_ (fun _ _ hc => nomatch hc)
      (fun _ _ _ hc => nomatch hc) (fun _ hu _ _ => hu) body hbody⟩
    exact fun name v hv => h.2.inside
      (List.mem_cons_of_mem _ (Bindings.mem_args_of_mem_ofParams hv))
  range_call _ _ hs :=
    ⟨hs.root, Value.everywhere_range (fun _ hc => nomatch hc) (fun _ hc => nomatch hc)
      fun _ _ hc => nomatch hc⟩
  inCall _ _ _ := trivial

/-- The evaluator stays in its tree and changes the root of it only. -/
theorem tree_lawful (r : FrameId) : (tree r).Lawful :=
  { tree_grows, tree_storeLaws, tree_dataLaws, tree_codeLaws with }

end LazyLisp
