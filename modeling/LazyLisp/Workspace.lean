import LazyLisp.Prelude

/-!
# Workspaces: several scopes side by side

A workspace keeps scopes that were opened one after the other, global ones
and inner ones, over one store, and lets programs be run and names be
bound in any of them. Scopes are named by the order in which they were
opened.
-/

namespace LazyLisp

/-- Scopes in the order of their opening, and the store behind them. -/
structure Workspace where
  scopes : List Scope
  store : Store
deriving Inhabited

namespace Workspace

/-- One thing to do in a workspace; a scope is given by its number. -/
inductive Step where
  /-- To run a program in a scope. -/
  | run (scope : Nat) (source : String)
  /-- To open a scope inside another one. -/
  | child (scope : Nat)
  /-- To open a global scope of its own, without a prelude. -/
  | global
  /-- To run a program in a scope and bind its value in that scope's own
  frame. -/
  | define (scope : Nat) (name source : String)

/-- What a step answers. -/
inductive Reply where
  /-- The value of a program. -/
  | value (v : Value)
  /-- The program had no value. -/
  | failed (error : Program.Error)
  /-- The number of the scope that was opened. -/
  | opened (scope : Nat)
  /-- The name is bound. -/
  | defined
  /-- There is no scope of this number. -/
  | noSuchScope
  /-- The program did not end within its fuel. -/
  | exhausted

/-- The workspace with one more scope and the store that has its frame. -/
def add (w : Workspace) (opened : Scope × Store) : Workspace :=
  ⟨w.scopes ++ [opened.1], opened.2⟩

/-- Does one step. What a failed program did to the store stays done; one
that did not end has done nothing. -/
def perform (fuel : Nat) (w : Workspace) : Step → Reply × Workspace
  | .run number source =>
      match w.scopes[number]? with
      | none => (.noSuchScope, w)
      | some scope =>
          match Program.run fuel source scope w.store with
          | .done v σ => (.value v, { w with store := σ })
          | .failed e σ => (.failed e, { w with store := σ })
          | .exhausted => (.exhausted, w)
  | .child number =>
      match w.scopes[number]? with
      | none => (.noSuchScope, w)
      | some scope => (.opened w.scopes.length, w.add (w.store.openInner scope []))
  | .global => (.opened w.scopes.length, w.add w.store.openGlobal)
  | .define number name source =>
      match w.scopes[number]? with
      | none => (.noSuchScope, w)
      | some scope =>
          match Program.run fuel source scope w.store with
          | .done v σ => (.defined, { w with store := σ.define scope.frame name v })
          | .failed e σ => (.failed e, { w with store := σ })
          | .exhausted => (.exhausted, w)

/-- A workspace with one global scope, number zero, with or without the
prelude. -/
def start (fuel : Nat) (withPrelude : Bool) : Workspace :=
  match Prelude.openGlobal fuel withPrelude .empty with
  | .done scope σ => ⟨[scope], σ⟩
  | .failed _ σ => ⟨[], σ⟩
  | .exhausted => ⟨[], .empty⟩

/-- The number of the global scope that a scope belongs to. -/
def rootNumber? (w : Workspace) (scope : Scope) : Option Nat :=
  w.scopes.findIdx? (· = scope.root)

end Workspace

end LazyLisp
