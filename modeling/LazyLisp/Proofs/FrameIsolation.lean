import LazyLisp.Proofs.FrameTrees
import LazyLisp.Proofs.Reachable

/-!
# Only global frames change

Functions and deferred rests share the frames that they were written in, and
they are evaluated at any later time, from any other place.  This would be
hard to reason about if those frames could change.  They cannot: of all
frames that are there, an evaluation changes at most the global one of the
scope that it was started in, and even that frame never loses a name.

This holds in every workspace that steps can lead to, for every scope that a
program or a value has hold of.  A frame inside another one changes by hand
only, when a step binds a name in just this frame.

## Main results

* `evaluate_forest` — one evaluation, over any stores with opened scopes.
* `LeadsTo.charted` — any steps after one another.
* `reachable_confined` — both together, for reachable workspaces.
-/

namespace LazyLisp

open Evaluation

/-! ## One evaluation -/

/-- An evaluation opens scopes and changes the root of its tree; a value of it
keeps scopes of the tree. -/
theorem evaluate_forest {opened : Scope → Prop} {σ τ : Store} {s : Scope} {form : Value}
    {fuel : Nat} (h : Forest opened σ) (hs : opened s) (hform : form.Written)
    (hends : (evaluate fuel form s σ).EndsIn τ) :
    ∃ opened', (∀ c, opened c → opened' c) ∧ Forest opened' τ ∧ σ.ChangesOnly s.rootFrame τ ∧
      ∀ v, evaluate fuel form s σ = .done v τ →
        v.KeepsOnly fun c => opened' c ∧ c.rootFrame = s.rootFrame := by
  have hcode : (tree s.rootFrame).Code ⟨opened, σ, h⟩ s form := ⟨⟨hs, rfl⟩, hform.keepsOnly⟩
  have hsafe := (tree s.rootFrame).evaluate_safe (tree_lawful _) fuel _ s form hcode
  rcases hends with ⟨v, hdone⟩ | ⟨f, hfailed⟩
  · obtain ⟨w, hle, hτ, hv⟩ := hsafe.done rfl hdone
    have hchanges := hle.2.trans (.of_frames_eq hτ)
    refine ⟨w.opened, hle.1, w.forest.congr hτ, hchanges, fun u hu => ?_⟩
    cases hdone.symm.trans hu
    exact hv
  · obtain ⟨-, w, hle, hτ⟩ := hsafe.failed rfl hfailed
    have hchanges := hle.2.trans (.of_frames_eq hτ)
    exact ⟨w.opened, hle.1, w.forest.congr hτ, hchanges, fun u hu => nomatch hfailed.symm.trans hu⟩

/-! ## Steps of a workspace -/

namespace Workspace

/-- All scopes of the workspace are among the opened ones. -/
structure Charted (opened : Scope → Prop) (w : Workspace) : Prop where
  forest : Forest opened w.store
  scopes : ∀ s ∈ w.scopes, opened s

/-- Steps that bind by hand in none of the spared frames lead from one
workspace to another. -/
inductive LeadsTo (spared : FrameId → Prop) (w : Workspace) : Workspace → Prop where
  | refl : LeadsTo spared w w
  | step {w' : Workspace} (fuel : Nat) (s : Step) (h : LeadsTo spared w w')
      (hs : ∀ f, s.target? w' = some f → ¬ spared f) : LeadsTo spared w (w'.perform fuel s).2

/-- What steps keep: frames and names everywhere, and all bindings of spared
frames that lie inside others.  Scopes that are new have new frames. -/
structure Preserves (spared : FrameId → Prop) (opened : Scope → Prop) (w w' : Workspace) :
    Prop where
  size_le : w.store.frames.size ≤ w'.store.frames.size
  scopes : ∀ s ∈ w'.scopes, s ∈ w.scopes ∨ w.store.frames.size ≤ s.frame
  names : w.store.NamesKept w'.store
  bindings : ∀ f outer, opened (.inner f outer) → spared f →
    w'.store.bindings f = w.store.bindings f

variable {opened : Scope → Prop} {w w' w'' : Workspace} {spared : FrameId → Prop}

theorem Preserves.refl : Preserves spared opened w w where
  size_le := Nat.le_refl _
  scopes _ hs := .inl hs
  names := .refl _
  bindings _ _ _ _ := rfl

private theorem Preserves.trans {opened' : Scope → Prop} (h : Preserves spared opened w w')
    (hmono : ∀ s, opened s → opened' s) (h' : Preserves spared opened' w' w'') :
    Preserves spared opened w w'' where
  size_le := Nat.le_trans h.size_le h'.size_le
  scopes := by
    intro s hs
    rcases h'.scopes s hs with hold | hnew
    · exact h.scopes s hold
    · exact .inr (Nat.le_trans h.size_le hnew)
  names := h.names.trans h'.names
  bindings f outer hf hspared := by
    rw [h'.bindings f outer (hmono _ hf) hspared, h.bindings f outer hf hspared]

/-- A scope may be opened inside another one, or on its own. -/
theorem Charted.add (spared : FrameId → Prop) (h : Charted opened w) (new : Scope) {τ : Store}
    (hnew : new.frame = w.store.frames.size) (houter : ∀ f s, new = .inner f s → opened s)
    (hτ : τ = w.store.addFrame []) :
    Charted (fun s => opened s ∨ s = new) (w.add (new, τ)) ∧
      Preserves spared opened w (w.add (new, τ)) := by
  subst hτ
  have hchanges := Store.ChangesOnly.addFrame w.store.frames.size w.store []
  have hscopes (s : Scope) (hs : s ∈ w.scopes ++ [new]) : s ∈ w.scopes ∨ s = new :=
    (List.mem_append.mp hs).imp id List.mem_singleton.mp
  constructor
  · refine ⟨h.forest.addFrame hnew houter (by simp), fun s hs => ?_⟩
    exact (hscopes s hs).imp (h.scopes s) id
  · refine ⟨hchanges.size_le, fun s hs => ?_, hchanges.names, fun f outer hf _ => ?_⟩
    · exact (hscopes s hs).imp id fun heq => Nat.le_of_eq (by rw [heq, hnew])
    · have hlt := h.forest.frame_lt hf
      exact hchanges.bindings f hlt (Nat.ne_of_lt hlt)

/-- Evaluating a form in one of the scopes keeps all frames inside others. -/
theorem Charted.preserves_of_changesOnly (spared : FrameId → Prop) (h : Charted opened w)
    {s : Scope} (hs : opened s) {τ : Store} (hτ : w.store.ChangesOnly s.rootFrame τ) :
    Preserves spared opened w { w with store := τ } where
  size_le := hτ.size_le
  scopes _ hs := .inl hs
  names := hτ.names
  bindings _ _ hf _ := hτ.bindings _ (h.forest.frame_lt hf) (h.forest.ne_rootFrame hf hs)

/-- One change to a workspace. -/
theorem Charted.change {target : Option FrameId} (h : Charted opened w)
    (hchange : Change w target w') (hspared : ∀ f, target = some f → ¬ spared f) :
    ∃ opened', (∀ s, opened s → opened' s) ∧ Charted opened' w' ∧
      Preserves spared opened w w' := by
  cases hchange with
  | none => exact ⟨opened, fun _ hs => hs, h, .refl⟩
  | @child scope hscope =>
      have houter : ∀ f s, Scope.inner w.store.frames.size scope = .inner f s → opened s := by
        intro f s heq
        cases heq
        exact h.scopes scope hscope
      obtain ⟨hcharted, hkept⟩ := h.add spared (.inner w.store.frames.size scope) rfl houter rfl
      exact ⟨_, fun s hs => .inl hs, hcharted, hkept⟩
  | opened =>
      obtain ⟨hcharted, hkept⟩ := h.add spared (.global w.store.frames.size) rfl nofun rfl
      exact ⟨_, fun s hs => .inl hs, hcharted, hkept⟩
  | @evaluated scope form fuel τ hscope hform hends =>
      have hs := h.scopes scope hscope
      obtain ⟨opened', hmono, hforest, hτ, -⟩ := evaluate_forest h.forest hs hform hends
      exact ⟨opened', hmono, ⟨hforest, fun s hs => hmono s (h.scopes s hs)⟩,
        h.preserves_of_changesOnly spared hs hτ⟩
  | @bound scope form v fuel τ name hscope hform hdone htarget =>
      have hs := h.scopes scope hscope
      obtain ⟨opened', hmono, hforest, hτ, hvalue⟩ :=
        evaluate_forest h.forest hs hform (.inl ⟨v, hdone⟩)
      have hkept := h.preserves_of_changesOnly spared hs hτ
      refine ⟨opened', hmono, ⟨?_, fun s hs => hmono s (h.scopes s hs)⟩, ?_, hkept.scopes, ?_, ?_⟩
      · exact hforest.define (hmono scope hs) name (hvalue v hdone)
      · exact Nat.le_trans hkept.size_le (Nat.le_of_eq Store.size_define.symm)
      · exact hkept.names.trans (τ.namesKept_define _ _ _)
      · intro f outer hf hsparedf
        have hne : scope.frame ≠ f := fun heq => hspared f (heq ▸ htarget) hsparedf
        rw [← hkept.bindings f outer hf hsparedf]
        exact Store.bindings_define_of_ne hne

/-- Any steps after one another. -/
theorem LeadsTo.charted (hlead : LeadsTo spared w w') (h : Charted opened w) :
    ∃ opened', (∀ s, opened s → opened' s) ∧ Charted opened' w' ∧
      Preserves spared opened w w' := by
  induction hlead with
  | refl => exact ⟨opened, fun _ hs => hs, h, .refl⟩
  | @step w' fuel s _ hs ih =>
      obtain ⟨opened', hmono, hcharted, hkept⟩ := ih
      obtain ⟨opened'', hmono', hcharted', hkept'⟩ := hcharted.change (change_perform w' fuel s) hs
      exact ⟨opened'', fun c hc => hmono' c (hmono c hc), hcharted', hkept.trans hmono hkept'⟩

/-- No steps bind in a frame that is there and is the innermost one of no
scope of the workspace. -/
theorem LeadsTo.spare (hlead : w.LeadsTo (fun _ => False) w') (h : Charted opened w)
    {f : FrameId} (hf : f < w.store.frames.size) (hscopes : ∀ s ∈ w.scopes, s.frame ≠ f) :
    w.LeadsTo (· = f) w' := by
  induction hlead with
  | refl => exact .refl
  | @step w' fuel s hlead _ ih =>
      obtain ⟨opened', -, -, hkept⟩ := hlead.charted h
      refine .step fuel s ih fun g htarget heq => ?_
      cases s with
      | define number name source =>
          obtain ⟨scope, hnumber, hframe⟩ := Option.map_eq_some_iff.mp htarget
          rcases hkept.scopes scope (List.mem_of_getElem? hnumber) with hold | hnew
          · exact hscopes scope hold (hframe.trans heq)
          · rw [hframe, heq] at hnew
            exact Nat.not_lt_of_le hnew hf
      | _ => cases htarget

/-- The scopes of a reachable workspace, and those that its store keeps, have been
opened in a forest. -/
theorem Reachable.charted (hw : w.Reachable) : ∃ opened, Charted opened w := by
  refine hw.invariant (I := fun w => ∃ opened, Charted opened w) ?_ ?_ ?_
  · exact ⟨_, .empty, by simp⟩
  · rintro w ⟨opened, h⟩
    exact ⟨opened, h.forest, by simp⟩
  · rintro w target w' ⟨opened, h⟩ hchange
    have hspared : ∀ f, target = some f → ¬ False := fun _ _ hf => hf
    obtain ⟨opened', -, h', -⟩ := h.change hchange hspared
    exact ⟨opened', h'⟩

/-! ## Scopes in use -/

/-- The scope is one of the workspace, is kept in a value that is bound
somewhere, or is around another one in use. -/
inductive InUse (w : Workspace) : Scope → Prop where
  | scope {s : Scope} (h : s ∈ w.scopes) : InUse w s
  | kept {s : Scope} {v : Value} (hv : w.store.Holds v) (hs : v.Keeps s) : InUse w s
  | outer {f : FrameId} {s : Scope} (h : InUse w (.inner f s)) : InUse w s

/-- Scopes in use have been opened. -/
theorem Charted.opened_of_inUse (h : Charted opened w) {s : Scope} (hs : w.InUse s) :
    opened s := by
  induction hs with
  | scope hs => exact h.scopes _ hs
  | kept hv hs => exact h.forest.opened_of_keeps hv hs
  | outer _ ih => exact h.forest.outer ih

/-- What an evaluation in a scope leaves of a workspace, when it ends with
the given store. -/
structure Confined (w : Workspace) (s : Scope) (τ : Store) : Prop where
  /-- All frames are still there. -/
  size_le : w.store.frames.size ≤ τ.frames.size
  /-- All but the global frame of the scope have the bindings that they had. -/
  bindings : ∀ f, f < w.store.frames.size → f ≠ s.rootFrame → τ.bindings f = w.store.bindings f
  /-- Whoever has hold of a frame sees the same frames around it as before. -/
  outer : ∀ a b, w.InUse a → InUse { w with store := τ } b → a.frame = b.frame → a = b
  /-- The frames of other trees are as they were. -/
  others : ∀ c, w.InUse c → c.rootFrame ≠ s.rootFrame → ∀ f ∈ c.frames,
    τ.bindings f = w.store.bindings f
  /-- So are the local frames of any scope, of this tree or of others. -/
  locals : ∀ c, w.InUse c → ∀ f ∈ c.frames, f ≠ c.rootFrame → τ.bindings f = w.store.bindings f
  /-- The global frame keeps all its names. -/
  names : (w.store.bindings s.rootFrame).names ⊆ (τ.bindings s.rootFrame).names
  /-- So a name that resolves in any scope goes on to resolve there. -/
  resolves : ∀ c name, w.store.Resolves c name → τ.Resolves c name

private theorem Charted.confined (h : Charted opened w) {s : Scope} (hs : w.InUse s) {form : Value}
    (hform : form.Written) {fuel : Nat} {τ : Store}
    (hends : (evaluate fuel form s w.store).EndsIn τ) : Confined w s τ := by
  have hopened := h.opened_of_inUse hs
  obtain ⟨opened', hmono, hforest, hτ, -⟩ := evaluate_forest h.forest hopened hform hends
  have hcharted : Charted opened' { w with store := τ } :=
    ⟨hforest, fun c hc => hmono c (h.scopes c hc)⟩
  refine ⟨hτ.size_le, hτ.bindings, ?_, ?_, ?_, hτ.names _, fun c name => hτ.names.resolves⟩
  · intro a b ha hb hframe
    exact hforest.unique (hmono a (h.opened_of_inUse ha)) (hcharted.opened_of_inUse hb) hframe
  · intro c hc hne f hf
    have hc := h.opened_of_inUse hc
    exact hτ.bindings f (h.forest.lt_of_mem_frames hc hf)
      (h.forest.ne_rootFrame_of_mem_frames hopened hc hne hf)
  · intro c hc f hf hne
    obtain ⟨outer, hinner⟩ := h.forest.inner_of_mem_frames (h.opened_of_inUse hc) hf hne
    exact hτ.bindings f (h.forest.frame_lt hinner) (h.forest.ne_rootFrame hinner hopened)

/-- In every reachable workspace, an evaluation changes the global frame of
its scope only, and that frame loses no name.  Over any later steps a name
goes on to resolve, and a local frame of a scope in use has the bindings it
had: without exception if no scope of the workspace is its own, and else
unless a step binds a name in that frame by hand. -/
theorem reachable_confined {w : Workspace} (hw : w.Reachable) :
    (∀ s, w.InUse s → ∀ (source : String) (form : Value), Reader.read source = .ok form →
      ∀ (fuel : Nat) (τ : Store), (evaluate fuel form s w.store).EndsIn τ → Confined w s τ) ∧
    (∀ w', w.LeadsTo (fun _ => False) w' → w.store.NamesKept w'.store ∧
      ∀ c name, w.store.Resolves c name → w'.store.Resolves c name) ∧
    (∀ c, w.InUse c → ∀ f ∈ c.frames, f ≠ c.rootFrame →
      (∀ w', w.LeadsTo (· = f) w' → w'.store.bindings f = w.store.bindings f) ∧
      ((∀ s ∈ w.scopes, s.frame ≠ f) →
        ∀ w', w.LeadsTo (fun _ => False) w' → w'.store.bindings f = w.store.bindings f)) := by
  obtain ⟨opened, h⟩ := hw.charted
  refine ⟨?_, ?_, ?_⟩
  · intro s hs source form hread fuel τ hends
    exact h.confined hs (Reader.written_of_read hread) hends
  · intro w' hlead
    obtain ⟨-, -, -, hkept⟩ := hlead.charted h
    exact ⟨hkept.names, fun c name hname => hkept.names.resolves hname⟩
  · intro c hc f hf hne
    obtain ⟨outer, hinner⟩ := h.forest.inner_of_mem_frames (h.opened_of_inUse hc) hf hne
    have hspared (w' : Workspace) (hlead : w.LeadsTo (· = f) w') :
        w'.store.bindings f = w.store.bindings f := by
      obtain ⟨-, -, -, hkept⟩ := hlead.charted h
      exact hkept.bindings f outer hinner rfl
    refine ⟨hspared, fun hscopes w' hlead => ?_⟩
    exact hspared w' (hlead.spare h (h.forest.frame_lt hinner) hscopes)

/-- A workspace with a global function that has kept a local name. -/
def keptLocal : Workspace :=
  ((start 1 false).perform 6 (.run 0 "(def f ((fn [x] (fn [] x)) 1))")).2

/-- The frame of an argument that a global function keeps stays as it is, whatever
steps follow. -/
theorem reachable_confined_local :
    keptLocal.Reachable ∧ keptLocal.InUse (.inner 2 (.inner 1 (.global 0))) ∧
      ∀ w, keptLocal.LeadsTo (fun _ => False) w → w.store.bindings 2 = [("x", .integer 1)] := by
  have hw : keptLocal.Reachable := .perform 6 _ (.start 1 false)
  have hglobal : keptLocal.store.bindings 0 =
      [("f", .closure 1 [] (.symbol "x") (.inner 2 (.inner 1 (.global 0))))] := by
    with_unfolding_all rfl
  have hlocal : keptLocal.store.bindings 2 = [("x", .integer 1)] := by
    with_unfolding_all rfl
  have huse : keptLocal.InUse (.inner 2 (.inner 1 (.global 0))) :=
    .kept ⟨0, "f", hglobal ▸ List.mem_singleton_self _⟩ (.here rfl)
  refine ⟨hw, huse, fun w hlead => ?_⟩
  rw [← hlocal]
  have hscopes : ∀ s ∈ keptLocal.scopes, s.frame ≠ 2 := by
    have hglobal : keptLocal.scopes = [.global 0] := by
      with_unfolding_all rfl
    rw [hglobal]
    decide
  exact ((reachable_confined hw).2.2 _ huse 2 (by decide) (by decide)).2 hscopes w hlead

end Workspace

end LazyLisp
