import LazyLisp.Proofs.Application

/-!
# What taking elements evaluates, and what it gives

To take elements of a sequence is to request them from its iterator, as many as are
wanted or until the end, and to put them in a row.  A walk with as many requests
says what is taken, and whether that succeeds.

What is forced on the way is a matter of how the evaluator is used.  A computation
that is given an evaluator asks it for evaluations of forms, and `Demands` says that
it asks for exactly these, in this order: with another evaluator that agrees on all
of them it does the same, so that it asks for nothing else, and with one that agrees
up to some of them and has no answer to that one it has no result, so that it asks for
that one next.  The demands of a computation and of what follows it come one after
the other (`Demands.bind`).  For a walk they are the rests of the cells before the last
element that is requested.

The row holds the elements in cells whose rests are the next cells themselves.  A
rest that is a value stands for itself, so that a single unit of fuel is enough to
force it, and no form that is left to be evaluated would come to anything with that.

## Main results

* `Cursor.takeFrom_eq_walk` — taking elements and walking.
* `Cursor.demands_takeFrom`, `Cursor.exists_cell_of_demands` — what is forced are the
  rests of the first cells.
* `inert_ready` — the row of elements is iterated, forced and written without
  evaluating anything.
* `Operator.take_forces_only` — all of it for the operator.
-/

namespace LazyLisp

open Eval Evaluation

namespace Eval

variable {α β : Type} {x : Eval α} {f : α → β} {σ τ : Store}

private theorem bind_pure_eq_done_iff {b : β} :
    (x >>= fun a => pure (f a)) σ = .done b τ ↔ ∃ a, x σ = .done a τ ∧ b = f a := by
  cases hx : x σ with
  | done a υ =>
      rw [Eval.bind_done hx]
      constructor
      · rintro ⟨⟩
        exact ⟨a, rfl, rfl⟩
      · rintro ⟨a', ⟨⟩, rfl⟩
        rfl
  | failed e υ => simp [Eval.bind_failed hx]
  | exhausted => simp [Eval.bind_exhausted hx]

private theorem bind_pure_eq_failed_iff {e : Failure} :
    (x >>= fun a => pure (f a)) σ = .failed e τ ↔ x σ = .failed e τ := by
  cases hx : x σ with
  | done a υ => simp [Eval.bind_done hx]
  | failed e' υ => simp [Eval.bind_failed hx]
  | exhausted => simp [Eval.bind_exhausted hx]

end Eval

/-! ## Walks and their beginnings -/

section Walks

variable {ev : Evaluator} {c : Cursor} {n m : Nat} {vs ws : List Value} {f : Option Failure}
  {σ τ υ : Store}

/-- A walk is over with the first request, or it has an element and goes on behind
it. -/
theorem Cursor.walk_succ_eq_done_iff :
    Cursor.walk ev (n + 1) c σ = .done (vs, f) τ ↔
      (c.next ev σ = .done none τ ∧ vs = [] ∧ f = none) ∨
      (∃ e, c.next ev σ = .failed e τ ∧ vs = [] ∧ f = some e) ∨
      ∃ v after υ more, c.next ev σ = .done (some (v, after)) υ ∧
        Cursor.walk ev n after υ = .done (more, f) τ ∧ vs = v :: more := by
  rw [Cursor.walk]
  constructor
  · intro h
    cases hnext : c.next ev σ with
    | exhausted => rw [hnext] at h; cases h
    | failed e υ =>
        rw [hnext] at h
        cases h
        exact .inr (.inl ⟨e, rfl, rfl, rfl⟩)
    | done found υ =>
        rw [hnext] at h
        cases found with
        | none =>
            cases h
            exact .inl ⟨rfl, rfl, rfl⟩
        | some r =>
            obtain ⟨v, after⟩ := r
            cases hmore : Cursor.walk ev n after υ with
            | exhausted => simp only [hmore] at h; cases h
            | failed e ω => simp only [hmore] at h; cases h
            | done listed ω =>
                simp only [hmore] at h
                cases h
                exact .inr (.inr ⟨v, after, υ, listed.1, rfl, hmore, rfl⟩)
  · rintro (⟨hnext, rfl, rfl⟩ | ⟨e, hnext, rfl, rfl⟩ | ⟨v, after, υ, more, hnext, hmore, rfl⟩)
    · rw [hnext]
    · rw [hnext]
    · simp only [hnext, hmore]

/-- A failure is the end of a walk and not its outcome. -/
theorem Cursor.walk_ne_failed {e : Failure} : Cursor.walk ev n c σ ≠ .failed e τ := by
  induction n generalizing c σ τ e with
  | zero =>
      intro h
      cases h
  | succ n ih =>
      intro h
      rw [Cursor.walk] at h
      cases hnext : c.next ev σ with
      | done found υ =>
          rw [hnext] at h
          cases found with
          | none => cases h
          | some r =>
              cases hmore : Cursor.walk ev n r.2 υ with
              | failed e ω => exact ih hmore
              | _ => simp only [hmore] at h; cases h
      | _ => rw [hnext] at h; cases h

/-- A walk finds no more elements than it asks for. -/
theorem Cursor.length_le_of_walk (h : Cursor.walk ev n c σ = .done (vs, f) τ) :
    vs.length ≤ n := by
  induction n generalizing c σ vs with
  | zero =>
      cases h
      exact Nat.le_refl 0
  | succ n ih =>
      obtain ⟨-, rfl, -⟩ | ⟨e, -, rfl, -⟩ | ⟨v, after, υ, more, -, hmore, rfl⟩ :=
        Cursor.walk_succ_eq_done_iff.mp h
      · exact Nat.zero_le _
      · exact Nat.zero_le _
      · exact Nat.succ_le_succ (ih hmore)

/-- The first requests of a walk, which fail only if the walk does. -/
theorem Cursor.exists_walk_take (h : Cursor.walk ev m c σ = .done (ws, f) υ) (hle : n ≤ m) :
    ∃ g τ, Cursor.walk ev n c σ = .done (ws.take n, g) τ ∧ (f = none → g = none) := by
  induction n generalizing m c σ ws with
  | zero => exact ⟨none, σ, rfl, fun _ => rfl⟩
  | succ n ih =>
      obtain ⟨m, rfl⟩ : ∃ more, m = more + 1 := ⟨m - 1, by omega⟩
      obtain ⟨hnext, rfl, rfl⟩ | ⟨e, hnext, rfl, rfl⟩ | ⟨v, after, ω, more, hnext, hmore, rfl⟩ :=
        Cursor.walk_succ_eq_done_iff.mp h
      · exact ⟨none, υ, Cursor.walk_succ_eq_done_iff.mpr (.inl ⟨hnext, rfl, rfl⟩), fun _ => rfl⟩
      · exact ⟨some e, υ, Cursor.walk_succ_eq_done_iff.mpr (.inr (.inl ⟨e, hnext, rfl, rfl⟩)), id⟩
      · obtain ⟨g, τ, hfirst, hg⟩ := ih hmore (Nat.le_of_succ_le_succ hle)
        exact ⟨g, τ, Cursor.walk_succ_eq_done_iff.mpr
          (.inr (.inr ⟨v, after, ω, _, hnext, hfirst, rfl⟩)), hg⟩

/-- Elements are taken as in a walk, up to a failure, which takes the place of them
all. -/
theorem Cursor.takeFrom_eq_walk (taken : List Value) :
    Cursor.takeFrom ev n c taken σ =
      match Cursor.walk ev n c σ with
      | .done (vs, none) τ => .done (taken.reverse ++ vs) τ
      | .done (_, some e) τ => .failed e τ
      | .failed e τ => .failed e τ
      | .exhausted => .exhausted := by
  induction n generalizing c taken σ with
  | zero => simp [Cursor.takeFrom, Cursor.walk]
  | succ n ih =>
      rw [Cursor.takeFrom, Cursor.walk]
      cases hnext : c.next ev σ with
      | exhausted => rfl
      | failed e υ => rfl
      | done found υ =>
          cases found with
          | none => simp
          | some r =>
              obtain ⟨v, after⟩ := r
              simp only [ih]
              cases Cursor.walk ev n after υ with
              | exhausted => rfl
              | failed e ω => rfl
              | done listed ω =>
                  obtain ⟨more, g⟩ := listed
                  cases g <;> simp

private theorem Cursor.takeFrom_eq_done_iff :
    Cursor.takeFrom ev n c [] σ = .done vs τ ↔ Cursor.walk ev n c σ = .done (vs, none) τ := by
  rw [Cursor.takeFrom_eq_walk]
  cases hwalk : Cursor.walk ev n c σ with
  | exhausted => simp
  | failed e υ => simp
  | done listed υ =>
      obtain ⟨us, g⟩ := listed
      cases g <;> simp

private theorem Cursor.takeFrom_eq_failed_iff {e : Failure} :
    Cursor.takeFrom ev n c [] σ = .failed e τ ↔
      ∃ vs, Cursor.walk ev n c σ = .done (vs, some e) τ := by
  rw [Cursor.takeFrom_eq_walk]
  cases hwalk : Cursor.walk ev n c σ with
  | exhausted => simp
  | failed e υ => exact absurd hwalk Cursor.walk_ne_failed
  | done listed υ =>
      obtain ⟨us, g⟩ := listed
      cases g <;> simp

/-- From what it yields, an iterator takes the first elements. -/
theorem Cursor.Yields.takeFrom_eq (h : c.Yields ev σ vs) (n : Nat) (taken : List Value) :
    Cursor.takeFrom ev n c taken σ = .done (taken.reverse ++ vs.take n) σ := by
  induction h generalizing n taken with
  | finished hnext =>
      cases n with
      | zero => simp [Cursor.takeFrom]
      | succ n => rw [Cursor.takeFrom, hnext, List.take_nil, List.append_nil]
  | @element c after v vs hnext _ ih =>
      cases n with
      | zero => simp [Cursor.takeFrom]
      | succ n =>
          rw [Cursor.takeFrom, hnext]
          show Cursor.takeFrom ev n after (v :: taken) σ = _
          rw [ih, List.reverse_cons, List.append_assoc, List.singleton_append, List.take_succ_cons]

end Walks

/-! ## What a computation asks of the evaluator -/

/-- An evaluation of a form in a scope, in a store. -/
structure Demand where
  form : Value
  scope : Scope
  store : Store

/-- How the evaluation ends. -/
def Demand.outcome (d : Demand) (ev : Evaluator) : Outcome Failure Value :=
  ev d.form d.scope d.store

/-- From this store, and given this evaluator, a computation asks it for exactly
these evaluations, one after the other. -/
structure Demands {α : Type} (x : Evaluator → Eval α) (ev : Evaluator) (σ : Store)
    (demands : List Demand) : Prop where
  /-- Nothing else is asked for: it does not matter what else there is. -/
  only : ∀ ev', (∀ d ∈ demands, d.outcome ev' = d.outcome ev) → x ev' σ = x ev σ
  /-- Each of them is asked for when those before it have been answered, whatever
  else there is: without an answer to it there is no result. -/
  each : ∀ earlier d later, demands = earlier ++ d :: later → ∀ ev',
    (∀ e ∈ earlier, e.outcome ev' = e.outcome ev) → d.outcome ev' = .exhausted →
      x ev' σ = .exhausted

namespace Demands

variable {α β : Type} {ev : Evaluator} {σ : Store}

/-- What is not given the evaluator asks for nothing. -/
theorem const (x : Eval α) : Demands (fun _ => x) ev σ [] where
  only := fun _ _ => rfl
  each := fun earlier d later h => by simp at h

/-- An evaluation asks for itself. -/
theorem eval (form : Value) (scope : Scope) :
    Demands (fun ev => ev form scope) ev σ [⟨form, scope, σ⟩] where
  only := fun ev' h => h _ (List.mem_singleton_self _)
  each := fun earlier d later h ev' _ hd => by
    obtain ⟨rfl, hlist⟩ | ⟨earlier', rfl, hlist⟩ := List.cons_eq_append_iff.mp h
    · cases hlist
      exact hd
    · simp at hlist

/-- A demand of two rows is one of the first, or one of the second behind all of the
first. -/
private theorem split_append {first second earlier later : List Demand} {d : Demand}
    (h : first ++ second = earlier ++ d :: later) :
    (∃ between, first = earlier ++ d :: between) ∨
      ∃ between, earlier = first ++ between ∧ second = between ++ d :: later := by
  obtain ⟨between, hearlier, hsecond⟩ | ⟨between, hfirst, hlater⟩ :=
    List.append_eq_append_iff.mp h
  · exact .inr ⟨between, hearlier, hsecond⟩
  · cases between with
    | nil => exact .inr ⟨[], by simpa using hfirst.symm, hlater.symm⟩
    | cons e between =>
        obtain ⟨rfl, -⟩ := List.cons.inj hlater
        exact .inl ⟨between, hfirst⟩

/-- What follows a computation asks for evaluations in the store that it leaves. -/
theorem bind {x : Evaluator → Eval α} {f : Evaluator → α → Eval β} {first second : List Demand}
    (hx : Demands x ev σ first)
    (hf : ∀ a τ, x ev σ = .done a τ → Demands (fun ev => f ev a) ev τ second)
    (hnone : (∀ a τ, x ev σ ≠ .done a τ) → second = []) :
    Demands (fun ev => x ev >>= f ev) ev σ (first ++ second) where
  only := fun ev' h => by
    have hsame := hx.only ev' fun d hd => h d (List.mem_append_left _ hd)
    cases hrun : x ev σ with
    | done a τ =>
        rw [Eval.bind_done (hsame.trans hrun), Eval.bind_done hrun]
        exact (hf a τ hrun).only ev' fun d hd => h d (List.mem_append_right _ hd)
    | failed e τ => rw [Eval.bind_failed (hsame.trans hrun), Eval.bind_failed hrun]
    | exhausted => rw [Eval.bind_exhausted (hsame.trans hrun), Eval.bind_exhausted hrun]
  each := fun earlier d later h ev' hearlier hd => by
    rcases split_append h with ⟨between, hfirst⟩ | ⟨between, rfl, hsecond⟩
    · exact Eval.bind_exhausted (hx.each earlier d between hfirst ev' hearlier hd)
    · -- the first computation has all that it asks for, and must have had a result
      have hrun := hx.only ev' fun e he => hearlier e (List.mem_append_left _ he)
      by_cases hdone : ∃ a τ, x ev σ = .done a τ
      · obtain ⟨a, τ, hdone⟩ := hdone
        rw [Eval.bind_done (hrun.trans hdone)]
        exact (hf a τ hdone).each between d later hsecond ev'
          (fun e he => hearlier e (List.mem_append_right _ he)) hd
      · have hempty := hnone fun a τ hrun => hdone ⟨a, τ, hrun⟩
        rw [hempty] at hsecond
        simp at hsecond

end Demands

/-! ## The rests that a walk forces -/

namespace Cursor

/-- What the request for the next element asks for. -/
def demand : Cursor → Store → List Demand
  | .before _, _ => []
  | .pending rest scope, σ => [⟨rest, scope, σ⟩]

/-- What so many requests ask for. -/
def demands (ev : Evaluator) : Nat → Cursor → Store → List Demand
  | 0, _, _ => []
  | n + 1, c, σ =>
      c.demand σ ++
        match c.next ev σ with
        | .done (some (_, after)) τ => demands ev n after τ
        | _ => []

variable {ev : Evaluator} {σ : Store}

private theorem demands_next (c : Cursor) : Demands (fun ev => c.next ev) ev σ (c.demand σ) := by
  cases c with
  | before v => exact .const (enter v)
  | pending rest scope =>
      have hrest : Demands (fun ev => forceRest ev rest scope) ev σ [⟨rest, scope, σ⟩] :=
        (Demands.eval rest scope).bind (fun v τ _ => .const _) fun _ => rfl
      exact hrest.bind (fun v τ _ => .const (enter v)) fun _ => rfl

/-- Taking elements asks for the rests that are forced on the way to them, and for
nothing else. -/
theorem demands_takeFrom (n : Nat) (c : Cursor) (taken : List Value) (σ : Store) :
    Demands (fun ev => takeFrom ev n c taken) ev σ (demands ev n c σ) := by
  induction n generalizing c taken σ with
  | zero => exact .const (takeFrom ev 0 c taken)
  | succ n ih =>
      simp only [takeFrom_succ]
      refine (demands_next c).bind (fun found τ hnext => ?_) fun hnone => ?_
      · rw [hnext]
        cases found with
        | none => exact .const _
        | some r => exact ih r.2 (r.1 :: taken) τ
      · split
        · exact absurd ‹_› (hnone _ _)
        · rfl

private theorem length_demands_le (n : Nat) (c : Cursor) (σ : Store) :
    (demands ev n c σ).length ≤ n := by
  induction n generalizing c σ with
  | zero => exact Nat.le_refl 0
  | succ n ih =>
      have hfirst : (c.demand σ).length ≤ 1 := by cases c <;> simp [demand]
      rw [demands, List.length_append]
      split
      · rename_i v after τ _
        have hmore := ih after τ
        omega
      · simp only [List.length_nil]
        omega

/-- The first element is there already. -/
theorem length_demands_before_le (n : Nat) (v : Value) (σ : Store) :
    (demands ev n (.before v) σ).length ≤ n - 1 := by
  cases n with
  | zero => exact Nat.le_refl 0
  | succ n =>
      rw [demands, demand, List.nil_append]
      split
      · exact length_demands_le n _ _
      · exact Nat.zero_le _

/-- At the terminal marker nothing is forced. -/
theorem demands_before_terminal (n : Nat) (σ : Store) :
    demands ev n (.before .terminal) σ = [] := by
  cases n <;> rfl

private theorem demands_before_pair (n : Nat) (cells : Chain Value) (σ : Store) :
    demands ev n (.before (.pair cells)) σ = [] := by
  induction n generalizing cells with
  | zero => rfl
  | succ n ih =>
      cases cells with
      | empty => rfl
      | last v => exact demands_before_terminal n σ
      | cell v rest => exact ih rest

/-- From a rest on, it is forced first, and then there are the demands of its value. -/
theorem demands_pending (n : Nat) (rest : Value) (scope : Scope) (σ : Store) :
    demands ev (n + 1) (.pending rest scope) σ =
      ⟨rest, scope, σ⟩ ::
        match forceRest ev rest scope σ with
        | .done u τ => demands ev (n + 1) (.before u) τ
        | _ => [] := by
  rw [demands, demand, List.singleton_append]
  cases hrest : forceRest ev rest scope σ with
  | done u τ =>
      have hnext : (Cursor.pending rest scope).next ev σ = (Cursor.before u).next ev τ :=
        Eval.bind_done hrest
      rw [hnext]
      rfl
  | failed e τ =>
      have hnext : (Cursor.pending rest scope).next ev σ = .failed e τ := Eval.bind_failed hrest
      rw [hnext]
  | exhausted =>
      have hnext : (Cursor.pending rest scope).next ev σ = .exhausted :=
        Eval.bind_exhausted hrest
      rw [hnext]

/-- Only a lazy cell has something to force behind its first element. -/
theorem exists_pending_of_demands {n : Nat} {s : Value}
    (h : demands ev n (.before s) σ ≠ []) :
    ∃ more head rest scope, s = .lazyCell head rest scope ∧
      demands ev n (.before s) σ = demands ev (more + 1) (.pending rest scope) σ := by
  cases n with
  | zero => exact absurd rfl h
  | succ n =>
      cases s with
      | pair cells => exact absurd (demands_before_pair _ cells σ) h
      | terminal => exact absurd (demands_before_terminal _ σ) h
      | lastCell head => exact absurd (demands_before_terminal n σ) h
      | lazyCell head rest scope =>
          cases n with
          | zero => exact absurd rfl h
          | succ n => exact ⟨n, head, rest, scope, rfl, rfl⟩
      | _ => exact absurd rfl h

/-- The demands are those for the rests of the first cells, in order: one for each, in
the store that forcing the ones before it has led to. -/
theorem exists_cell_of_demands {n j : Nat} {s : Value} {d : Demand}
    (h : (demands ev n (.before s) σ)[j]? = some d) :
    ∃ cells head, forceCells ev j s σ = .done (cells, none) d.store ∧
      (s :: cells)[j]? = some (.lazyCell head d.form d.scope) := by
  induction j generalizing n s σ with
  | zero =>
      have hnonempty : demands ev n (.before s) σ ≠ [] := fun hnil => by simp [hnil] at h
      obtain ⟨more, head, rest, scope, rfl, hdemands⟩ := exists_pending_of_demands hnonempty
      rw [hdemands, demands_pending] at h
      cases h
      exact ⟨[], head, rfl, rfl⟩
  | succ j ih =>
      have hnonempty : demands ev n (.before s) σ ≠ [] := fun hnil => by simp [hnil] at h
      obtain ⟨more, head, rest, scope, rfl, hdemands⟩ := exists_pending_of_demands hnonempty
      rw [hdemands, demands_pending, List.getElem?_cons_succ] at h
      cases hrest : forceRest ev rest scope σ with
      | done u τ =>
          rw [hrest] at h
          obtain ⟨cells, first, hforced, hcell⟩ := ih h
          refine ⟨u :: cells, first, ?_, hcell⟩
          rw [forceCells]
          simp only [forceTail?, hrest, hforced]
      | failed e τ => simp [hrest] at h
      | exhausted => simp [hrest] at h

end Cursor

/-! ## Sequences that are all there -/

/-- The value is the sequence of these elements and has nothing left to evaluate:
what is done with it takes no more fuel than a value needs to stand for itself. -/
structure Value.Inert (r : Value) (vs : List Value) : Prop where
  /-- Without elements it is the marker. -/
  terminal : vs = [] → r = .terminal
  /-- With elements it is a lazy sequence. -/
  lazySequence : vs ≠ [] → r.kind = .lazySequence
  /-- It is written like the list of its elements. -/
  text : vs ≠ [] → r.text = (Value.pair (.ofList vs)).text
  /-- Iterating it answers the elements and then the end, and does nothing else. -/
  answers : ∀ fuel σ m,
    LazyLisp.answers (Cursor.next (evaluate (fuel + 1))) (vs.length + m) (some (.before r)) σ =
      .done (vs.map .element ++ List.replicate m .finished) σ
  /-- Forcing it succeeds as often as there is something to force, and does nothing
  else. -/
  forced : ∀ fuel σ times, ∃ cells,
    forceCells (evaluate (fuel + 1)) times r σ = .done (cells, none) σ

section Ready

variable {scope : Scope} {vs : List Value}

private theorem ready_cons_cons (v w : Value) (more : List Value) :
    Value.ready scope (v :: w :: more) =
      .lazyCell v (Value.ready scope (w :: more)) scope := rfl

private theorem kind_ready (h : vs ≠ []) : (Value.ready scope vs).kind = .lazySequence := by
  cases vs with
  | nil => exact absurd rfl h
  | cons v more => cases more <;> rfl

theorem isSequence_ready : (Value.ready scope vs).isSequence = true := by
  cases vs with
  | nil => rfl
  | cons v more => cases more <;> rfl

private theorem isPending_ready : (Value.ready scope vs).isPending = false := by
  cases vs with
  | nil => rfl
  | cons v more => cases more <;> rfl

/-- Its rest stands for itself. -/
theorem forceRest_ready (fuel : Nat) (scope captured : Scope) (vs : List Value) :
    forceRest (evaluate (fuel + 1)) (Value.ready scope vs) captured =
      pure (Value.ready scope vs) := by
  rw [forceRest, evaluate_of_isPending_eq_false isPending_ready, pure_bind,
    if_pos isSequence_ready]

/-- A chain of ready cells is walked without any effect. -/
theorem yields_ready (fuel : Nat) (scope : Scope) (σ : Store) (vs : List Value) :
    (Cursor.before (Value.ready scope vs)).Yields (evaluate (fuel + 1)) σ vs := by
  induction vs with
  | nil => exact .finished rfl
  | cons v more ih =>
      cases more with
      | nil => exact .element rfl (.finished rfl)
      | cons w more =>
          have hrest := congrFun (forceRest_ready fuel scope scope (w :: more)) σ
          exact .element rfl (.pending hrest ih)

private theorem exists_forceCells_ready (fuel : Nat) (σ : Store) (times : Nat) (vs : List Value) :
    ∃ cells, forceCells (evaluate (fuel + 1)) times (Value.ready scope vs) σ =
      .done (cells, none) σ := by
  induction times generalizing vs with
  | zero => exact ⟨[], rfl⟩
  | succ times ih =>
      cases vs with
      | nil => exact ⟨[], rfl⟩
      | cons v more =>
          obtain ⟨cells, hcells⟩ := ih more
          refine ⟨Value.ready scope more :: cells, ?_⟩
          cases more with
          | nil =>
              have hend : forceCells (evaluate (fuel + 1)) times .terminal σ =
                  .done (cells, none) σ := hcells
              simp only [Value.ready, forceCells, forceTail?, pure_apply, hend]
          | cons w more =>
              have hrest := congrFun (forceRest_ready fuel scope scope (w :: more)) σ
              rw [ready_cons_cons, forceCells]
              simp only [forceTail?, hrest, pure_apply, hcells]

private theorem tailTexts_ready (v : Value) (more : List Value) :
    (Value.ready scope (v :: more)).tailTexts = Value.texts (v :: more) := by
  induction more generalizing v with
  | nil => simp [Value.ready, Value.tailTexts, Value.texts]
  | cons w more ih => simp only [ready_cons_cons, Value.tailTexts, ih, Value.texts]

private theorem text_ready (h : vs ≠ []) :
    (Value.ready scope vs).text = (Value.pair (.ofList vs)).text := by
  rw [Value.text, Value.cellTexts_eq_texts, Chain.toList_ofList]
  cases vs with
  | nil => exact absurd rfl h
  | cons v more =>
      cases more with
      | nil => simp [Value.ready, Value.text, Value.texts, Value.spaced]
      | cons w more => simp only [ready_cons_cons, Value.text, tailTexts_ready, Value.texts]

theorem inert_ready (scope : Scope) (vs : List Value) : (Value.ready scope vs).Inert vs where
  terminal := fun h => by rw [h]; rfl
  lazySequence := kind_ready
  text := text_ready
  answers := fun fuel σ m => (yields_ready fuel scope σ vs).answers_eq m
  forced := fun fuel σ times => exists_forceCells_ready fuel σ times vs

end Ready

/-! ## Taking elements -/

private theorem Value.isPending_of_isSequence {s : Value} (h : s.isSequence = true) :
    s.isPending = false := by
  cases s <;> first | rfl | cases h

/-- A sequence stands for itself. -/
theorem evaluate_sequence {s : Value} (hs : s.isSequence = true) (fuel : Nat) (scope : Scope)
    (σ : Store) : evaluate (fuel + 1) s scope σ = .done s σ :=
  congrFun (evaluate_of_isPending_eq_false (Value.isPending_of_isSequence hs) fuel scope) σ

private theorem toInt_min (m n : Int64) : (min m n).toInt = min m.toInt n.toInt := by
  simp only [Min.min, Int64.le_iff_toInt_le]
  split <;> rfl

/-- The form that takes so many elements of what a form names. -/
def Value.takeForm (count : Int64) (s : Value) (span : Span) : Value :=
  .call (.symbol Operator.take.name) [.integer count, s] span

namespace Operator

variable {ev : Evaluator} {n m : Int64} {s r : Value} {vs : List Value} {scope : Scope}
  {σ τ : Store} {fuel : Nat}

/-- The elements of a sequence are taken and put in a row. -/
theorem run_take (hn : 0 ≤ n.toInt) (hs : s.isSequence = true) (ev : Evaluator) (scope : Scope) :
    run ev scope [.integer n, s] .take =
      Cursor.takeFrom ev n.toInt.toNat (.before s) [] >>= fun vs =>
        pure (Value.ready scope.root vs) := by
  show takeOf ev scope [.integer n, s] = _
  rw [takeOf]
  show (if n.toInt < 0 then _ else _) = _
  rw [if_neg (Int.not_lt.mpr hn), if_pos hs]

/-- Taking succeeds if and only if the walk does, and answers the elements that
were found. -/
theorem run_take_eq_done_iff (hn : 0 ≤ n.toInt) (hs : s.isSequence = true) :
    run ev scope [.integer n, s] .take σ = .done r τ ↔
      ∃ vs, Cursor.walk ev n.toInt.toNat (.before s) σ = .done (vs, none) τ ∧
        r = Value.ready scope.root vs := by
  rw [run_take hn hs, bind_pure_eq_done_iff]
  exact exists_congr fun vs => and_congr_left' Cursor.takeFrom_eq_done_iff

private theorem run_take_eq_failed_iff (hn : 0 ≤ n.toInt) (hs : s.isSequence = true) {e : Failure} :
    run ev scope [.integer n, s] .take σ = .failed e τ ↔
      ∃ vs, Cursor.walk ev n.toInt.toNat (.before s) σ = .done (vs, some e) τ := by
  rw [run_take hn hs, bind_pure_eq_failed_iff, Cursor.takeFrom_eq_failed_iff]

/-- Nothing is asked for but what the walk asks for. -/
theorem demands_run_take (hn : 0 ≤ n.toInt) (hs : s.isSequence = true) (ev : Evaluator)
    (scope : Scope) (σ : Store) :
    Demands (fun ev => run ev scope [.integer n, s] .take) ev σ
      (Cursor.demands ev n.toInt.toNat (.before s) σ) := by
  simp only [run_take hn hs]
  have htaken : Demands (fun ev => Cursor.takeFrom ev n.toInt.toNat (.before s) []) ev σ
      (Cursor.demands ev n.toInt.toNat (.before s) σ) := Cursor.demands_takeFrom _ _ _ _
  have hready := htaken.bind (f := fun _ vs => pure (Value.ready scope.root vs))
    (fun vs τ _ => .const _) fun _ => rfl
  rwa [List.append_nil] at hready

/-- A call takes from the value of the form in it. -/
theorem evaluate_takeForm {form : Value} (h : evaluate (fuel + 1) form scope σ = .done s τ)
    (n : Int64) (span : Span) :
    evaluate (fuel + 2) (.takeForm n form span) scope σ =
      (run (evaluate (fuel + 1)) scope [.integer n, s] .take).within
        (.symbol Operator.take.name) [.integer n, s] span τ := by
  have hp : primitive? (.symbol Operator.take.name) = some (.operator .take) :=
    primitive?_name (.operator .take)
  have hargs : arguments (evaluate (fuel + 1)) scope [.integer n, form] σ =
      .done [.integer n, s] τ := by
    rw [arguments, evaluate_of_isPending_eq_false rfl, pure_bind, arguments, bind_assoc,
      Eval.bind_done h]
    rfl
  rw [evaluate_eq_bind]
  show (call (fuel + 1) (evaluate (fuel + 1)) scope (.symbol Operator.take.name)
    [.integer n, form] span >>= resume (evaluate (fuel + 1))) σ = _
  rw [call, hp]
  simp only [bind_assoc, pure_bind, resume, bind_pure]
  rw [Eval.bind_done (within_done hargs _ _ _)]

/-- Taking from a row that is there takes the first of its elements. -/
theorem run_take_ready (hm : 0 ≤ m.toInt) (fuel : Nat) (scope captured : Scope) (vs : List Value)
    (σ : Store) :
    run (evaluate (fuel + 1)) scope [.integer m, Value.ready captured vs] .take σ =
      .done (Value.ready scope.root (vs.take m.toInt.toNat)) σ := by
  have htaken := (yields_ready fuel captured σ vs).takeFrom_eq m.toInt.toNat []
  rw [run_take hm isSequence_ready, Eval.bind_done htaken]
  rfl

/-- The first of the elements taken are taken from the start with the lesser count. -/
theorem run_take_min (hn : 0 ≤ n.toInt) (hm : 0 ≤ m.toInt) (hs : s.isSequence = true)
    (hwalk : Cursor.walk ev n.toInt.toNat (.before s) σ = .done (vs, none) τ) :
    ∃ υ, run ev scope [.integer (min m n), s] .take σ =
      .done (Value.ready scope.root (vs.take m.toInt.toNat)) υ := by
  have hmin := toInt_min m n
  obtain ⟨g, υ, hfirst, hg⟩ :=
    Cursor.exists_walk_take (n := (min m n).toInt.toNat) hwalk (by omega)
  obtain rfl := hg rfl
  have htake : vs.take (min m n).toInt.toNat = vs.take m.toInt.toNat := by
    have hlength := Cursor.length_le_of_walk hwalk
    rcases Int.le_total m.toInt n.toInt with hle | hle
    · rw [hmin, Int.min_eq_left hle]
    · rw [hmin, Int.min_eq_right hle, List.take_of_length_le hlength,
        List.take_of_length_le (by omega)]
  rw [htake] at hfirst
  exact ⟨υ, (run_take_eq_done_iff (by omega) hs).mpr ⟨_, hfirst, rfl⟩⟩

/-- To take from what has been taken is to take with the lesser count. -/
theorem exists_take_take (hn : 0 ≤ n.toInt) (hm : 0 ≤ m.toInt) (hs : s.isSequence = true)
    (hwalk : Cursor.walk (evaluate (fuel + 1)) n.toInt.toNat (.before s) σ = .done (vs, none) τ)
    (scope : Scope) (span span' : Span) :
    ∃ r υ, evaluate (fuel + 3) (.takeForm m (.takeForm n s span) span') scope σ = .done r τ ∧
      evaluate (fuel + 2) (.takeForm (min m n) s span) scope σ = .done r υ := by
  have hself := evaluate_sequence hs fuel scope σ
  have htaken : evaluate (fuel + 2) (.takeForm n s span) scope σ =
      .done (Value.ready scope.root vs) τ := by
    rw [evaluate_takeForm hself]
    exact within_done ((run_take_eq_done_iff hn hs).mpr ⟨vs, hwalk, rfl⟩) _ _ _
  obtain ⟨υ, hmin⟩ := run_take_min hn hm hs hwalk
  refine ⟨Value.ready scope.root (vs.take m.toInt.toNat), υ, ?_, ?_⟩
  · rw [evaluate_takeForm htaken]
    exact within_done (run_take_ready hm (fuel + 1) scope scope.root vs τ) _ _ _
  · rw [evaluate_takeForm hself]
    exact within_done hmin _ _ _

/-- Taking elements forces only what it gives, and what it gives is inert.  It
succeeds if the requests for so many elements do, or those up to the end, and fails
as the first one that fails.  It asks for the rests of the first cells of the
sequence, one after the other and fewer than there are requests, and for nothing
else, so that what later rests would do makes no difference.  What it gives are the
elements of the walk, as many as asked for or as there are: nothing of them is left
to be evaluated.  To take fewer of them is to take so many from the beginning. -/
theorem take_forces_only {n : Int64} (hn : 0 ≤ n.toInt) {s : Value} (hs : s.isSequence = true)
    (scope : Scope) (σ : Store) (fuel : Nat) (span : Span) :
    let ev := evaluate (fuel + 1)
    let count := n.toInt.toNat
    let taking (ev : Evaluator) : Eval Value := run ev scope [.integer n, s] .take
    evaluate (fuel + 2) (.takeForm n s span) scope σ =
      (taking ev).within (.symbol "take") [.integer n, s] span σ ∧
    (∀ r τ, taking ev σ = .done r τ ↔
      ∃ vs, Cursor.walk ev count (.before s) σ = .done (vs, none) τ ∧
        r = Value.ready scope.root vs) ∧
    (∀ e τ, taking ev σ = .failed e τ ↔
      ∃ vs, Cursor.walk ev count (.before s) σ = .done (vs, some e) τ) ∧
    (∃ forced, Demands taking ev σ forced ∧ forced.length ≤ count - 1 ∧
      ∀ (j : Nat) d, forced[j]? = some d →
        ∃ cells head, forceCells ev j s σ = .done (cells, none) d.store ∧
          (s :: cells)[j]? = some (.lazyCell head d.form d.scope)) ∧
    ∀ vs τ, Cursor.walk ev count (.before s) σ = .done (vs, none) τ →
      (Value.ready scope.root vs).Inert vs ∧ vs.length ≤ count ∧
      (∀ more ws e υ, count ≤ more → Cursor.walk ev more (.before s) σ = .done (ws, e) υ →
        vs = ws.take count) ∧
      ∀ m : Int64, 0 ≤ m.toInt → ∀ span', ∃ r υ,
        evaluate (fuel + 3) (.takeForm m (.takeForm n s span) span') scope σ = .done r τ ∧
        evaluate (fuel + 2) (.takeForm (min m n) s span) scope σ = .done r υ := by
  intro ev count taking
  have hself := evaluate_sequence hs fuel scope σ
  refine ⟨evaluate_takeForm hself n span, fun r τ => run_take_eq_done_iff hn hs,
    fun e τ => run_take_eq_failed_iff hn hs, ?_, fun vs τ hwalk => ?_⟩
  · exact ⟨_, demands_run_take hn hs ev scope σ, Cursor.length_demands_before_le count s σ,
      fun j d => Cursor.exists_cell_of_demands⟩
  · refine ⟨inert_ready scope.root vs, Cursor.length_le_of_walk hwalk,
      fun more ws e υ hle hmore => ?_,
      fun m hm span' => exists_take_take hn hm hs hwalk scope span span'⟩
    obtain ⟨g, ω, hfirst, -⟩ := Cursor.exists_walk_take hmore hle
    rw [hwalk] at hfirst
    cases hfirst
    rfl

/-- A sequence of two elements that fails behind them.  Both are taken, as long as
the third is not asked for, and one of the two is one from the beginning. -/
theorem take_forces_only_unbound :
    let rest : Value := .call (.symbol "lazypair") [.integer 2, .symbol "x"] ⟨11, 25⟩
    let s : Value := .lazyCell (.integer 1) rest (.global 0)
    let taken : Value := .lazyCell (.integer 1) (.lastCell (.integer 2)) (.global 0)
    let σ : Store := ⟨#[[]], 0, ""⟩
    let place : Span := ⟨0, 36⟩
    0 ≤ (2 : Int64).toInt ∧ 0 ≤ (1 : Int64).toInt ∧ s.isSequence = true ∧
      Cursor.walk (evaluate 3) 3 (.before s) σ =
        .done ([.integer 1, .integer 2], some (.of (.unresolved "x"))) σ ∧
      evaluate 4 (.takeForm 2 s place) (.global 0) σ = .done taken σ ∧
      taken.Inert [.integer 1, .integer 2] ∧
      (∃ forced, Demands (fun ev => run ev (.global 0) [.integer 2, s] .take) (evaluate 3) σ
        forced ∧ forced.length ≤ 1) ∧
      evaluate 5 (.takeForm 1 (.takeForm 2 s place) place) (.global 0) σ =
        .done (.lastCell (.integer 1)) σ := by
  intro rest s taken σ place
  have htwo : 0 ≤ (2 : Int64).toInt := by decide
  have hone : 0 ≤ (1 : Int64).toInt := by decide
  have hs : s.isSequence = true := rfl
  have hwalk : Cursor.walk (evaluate 3) 2 (.before s) σ =
      .done ([.integer 1, .integer 2], none) σ := rfl
  obtain ⟨hcall, hdone, -, ⟨forced, hforced, hlength, -⟩, hgives⟩ :=
    take_forces_only htwo hs (.global 0) σ 2 place
  obtain ⟨hinert, -, -, hfewer⟩ := hgives _ σ hwalk
  obtain ⟨r, υ, hnested, hlesser⟩ := hfewer 1 hone place
  have htaken := hcall.trans (within_done ((hdone taken σ).mpr ⟨_, hwalk, rfl⟩) _ _ _)
  have hfirst : r = .lastCell (.integer 1) := by
    have hrun : evaluate 4 (.takeForm (min 1 2) s place) (.global 0) σ =
        .done (.lastCell (.integer 1)) σ := rfl
    cases hlesser.symm.trans hrun
    rfl
  exact ⟨htwo, hone, hs, rfl, htaken, hinert, ⟨forced, hforced, hlength⟩, hfirst ▸ hnested⟩

end Operator

end LazyLisp
