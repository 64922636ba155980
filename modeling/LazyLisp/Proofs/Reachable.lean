import LazyLisp.Proofs.Parts
import LazyLisp.Workspace

/-!
# Reachable workspaces

Steps of a workspace read programs, evaluate them and bind what comes out.
Here the text of a program and the replies are out of the way: a step
evaluates a written form in one of the scopes, opens a scope, or binds the
value of a form in the frame of one of the scopes, and it does nothing else.
Whatever these few changes preserve holds of every workspace that steps lead
to from the start, with the prelude or without it.

## Main results

* `change_perform` — every step is one of the changes.
* `Reachable.invariant` — the induction over all reachable workspaces.
-/

namespace LazyLisp

namespace Workspace

open Evaluation

/-- Steps lead to the workspace from a start, with or without the prelude. -/
inductive Reachable : Workspace → Prop where
  | start (fuel : Nat) (withPrelude : Bool) : Reachable (Workspace.start fuel withPrelude)
  | perform {w : Workspace} (fuel : Nat) (s : Step) :
      Reachable w → Reachable (w.perform fuel s).2

/-- The frame in which a step binds the value of its program. -/
def Step.target? (w : Workspace) : Step → Option FrameId
  | .define number _ _ => w.scopes[number]?.map Scope.frame
  | _ => none

/-- What a step that may bind in the given frame does to a workspace. -/
inductive Change (w : Workspace) (target : Option FrameId) : Workspace → Prop where
  | none : Change w target w
  | evaluated {scope : Scope} {form : Value} {fuel : Nat} {τ : Store} (hscope : scope ∈ w.scopes)
      (hform : form.Written) (h : (evaluate fuel form scope w.store).EndsIn τ) :
      Change w target { w with store := τ }
  | bound {scope : Scope} {form v : Value} {fuel : Nat} {τ : Store} (name : String)
      (hscope : scope ∈ w.scopes) (hform : form.Written)
      (h : evaluate fuel form scope w.store = .done v τ) (htarget : target = some scope.frame) :
      Change w target { w with store := τ.define scope.frame name v }
  | child {scope : Scope} (hscope : scope ∈ w.scopes) :
      Change w target (w.add (w.store.openInner scope []))
  | opened : Change w target (w.add w.store.openGlobal)

variable {w : Workspace} {fuel : Nat} {source : String} {scope : Scope} {σ τ : Store}

/-- A program that has a value is a written form with that value. -/
theorem evaluate_of_run_done {v : Value} (h : Program.run fuel source scope σ = .done v τ) :
    ∃ form : Value, form.Written ∧ evaluate fuel form scope σ = .done v τ := by
  unfold Program.run at h
  split at h
  · cases h
  · rename_i form hread
    refine ⟨form, Reader.written_of_read hread, ?_⟩
    cases heval : evaluate fuel form scope σ <;> rw [heval] at h <;> cases h
    rfl

/-- A program that fails has not been read, or it is a written form whose
evaluation fails. -/
theorem evaluate_of_run_failed {e : Program.Error}
    (h : Program.run fuel source scope σ = .failed e τ) :
    τ = σ ∨ ∃ form : Value, form.Written ∧ (evaluate fuel form scope σ).EndsIn τ := by
  unfold Program.run at h
  split at h
  · cases h
    exact .inl rfl
  · rename_i form hread
    refine .inr ⟨form, Reader.written_of_read hread, ?_⟩
    cases heval : evaluate fuel form scope σ <;> rw [heval] at h <;> cases h
    exact .inr ⟨_, rfl⟩

/-- A run that fails changes the workspace like any other. -/
theorem change_of_run_failed {target : Option FrameId} {e : Program.Error}
    (hscope : scope ∈ w.scopes) (h : Program.run fuel source scope w.store = .failed e τ) :
    Change w target { w with store := τ } := by
  rcases evaluate_of_run_failed h with rfl | ⟨form, hform, hends⟩
  · exact .none
  · exact .evaluated hscope hform hends

/-- Every step is one of the changes, and binds in its own target only. -/
theorem change_perform (w : Workspace) (fuel : Nat) (s : Step) :
    Change w (s.target? w) (w.perform fuel s).2 := by
  cases s with
  | run number source =>
      rw [perform]
      split
      · exact .none
      · rename_i scope hnumber
        have hscope := List.mem_of_getElem? hnumber
        split
        · rename_i v τ hrun
          obtain ⟨form, hform, heval⟩ := evaluate_of_run_done hrun
          exact .evaluated hscope hform (.inl ⟨v, heval⟩)
        · rename_i e τ hrun
          exact change_of_run_failed hscope hrun
        · exact .none
  | child number =>
      rw [perform]
      split
      · exact .none
      · rename_i scope hnumber
        exact .child (List.mem_of_getElem? hnumber)
  | global => exact .opened
  | define number name source =>
      rw [perform]
      split
      · exact .none
      · rename_i scope hnumber
        have hscope := List.mem_of_getElem? hnumber
        split
        · rename_i v τ hrun
          obtain ⟨form, hform, heval⟩ := evaluate_of_run_done hrun
          exact .bound name hscope hform heval (by rw [Step.target?, hnumber]; rfl)
        · rename_i e τ hrun
          exact change_of_run_failed hscope hrun
        · exact .none

/-- What holds of the empty workspace, outlives every change and does not
depend on how many scopes are at hand holds of all reachable workspaces. -/
theorem Reachable.invariant {I : Workspace → Prop} (hempty : I ⟨[], .empty⟩)
    (hforget : ∀ w, I w → I ⟨[], w.store⟩)
    (hchange : ∀ w target w', I w → Change w target w' → I w') (h : Reachable w) : I w := by
  induction h with
  | perform fuel s _ ih => exact hchange _ _ _ ih (change_perform _ fuel s)
  | start fuel withPrelude =>
      have hopened := hchange _ none _ hempty .opened
      unfold Workspace.start Prelude.openGlobal
      cases withPrelude with
      | false => exact hopened
      | true =>
          cases hrun : Program.run fuel Prelude.source Store.empty.openGlobal.1
              Store.empty.openGlobal.2 with
          | done v τ =>
              obtain ⟨form, hform, heval⟩ := evaluate_of_run_done hrun
              have hscope := List.mem_singleton_self Store.empty.openGlobal.1
              simp only [hrun, if_pos]
              exact hchange _ none _ hopened (.evaluated hscope hform (.inl ⟨v, heval⟩))
          | failed e τ =>
              have hscope := List.mem_singleton_self Store.empty.openGlobal.1
              simp only [hrun, if_pos]
              exact hforget _ (hchange _ none _ hopened (change_of_run_failed hscope hrun))
          | exhausted =>
              simp only [hrun, if_pos]
              exact hempty

end Workspace

end LazyLisp
