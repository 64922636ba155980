import LazyLisp.Outcome

/-!
# Walking sequences

Pairs, lazy sequences and the terminal marker are walked by one cursor. It
evaluates the deferred rest of a lazy cell only when the element after that
cell is asked for, and in the scope that the rest was written in. A cursor
at its end stays there: `next` gives no cursor to go on with.

## Main results

* `takeFrom_succ`, `takeAll_succ` — taking more is a request for an element
  and then the same from there.
-/

namespace LazyLisp

/-- Evaluates the deferred rest of a lazy sequence. Only a sequence can
continue one. -/
def forceRest (ev : Evaluator) (rest : Value) (scope : Scope) : Eval Value := do
  let v ← ev rest scope
  if v.isSequence then pure v else Eval.fail (.restNotSequence v.kind)

/-- What follows the head of a lazy sequence; other values have nothing
that could be forced. -/
def forceTail? (ev : Evaluator) : Value → Option (Eval Value)
  | .lastCell _ => some (pure .terminal)
  | .lazyCell _ rest scope => some (forceRest ev rest scope)
  | _ => none

/-- A place in a sequence. -/
inductive Cursor where
  /-- Before the first element of a value. -/
  | before (v : Value)
  /-- After a lazy cell whose rest has not been asked for. -/
  | pending (rest : Value) (scope : Scope)

namespace Cursor

/-- The first element of a value and the place after it; nothing at the
end. -/
def enter : Value → Eval (Option (Value × Cursor))
  | .pair .empty => pure none
  | .pair (.last v) => pure (some (v, .before .terminal))
  | .pair (.cell v rest) => pure (some (v, .before (.pair rest)))
  | .lastCell head => pure (some (head, .before .terminal))
  | .lazyCell head rest scope => pure (some (head, .pending rest scope))
  | .terminal => pure none
  | other => Eval.fail (.notWalkable other.kind)

/-- The next element and the place after it; nothing at the end. -/
def next (ev : Evaluator) : Cursor → Eval (Option (Value × Cursor))
  | .before v => enter v
  | .pending rest scope => do
      let v ← forceRest ev rest scope
      enter v

/-- Takes elements until there are `count` of them or the sequence ends;
`taken` holds the ones so far, the latest first. -/
def takeFrom (ev : Evaluator) : Nat → Cursor → List Value → Eval (List Value)
  | 0, _, taken, σ => .done taken.reverse σ
  | count + 1, c, taken, σ =>
      match next ev c σ with
      | .done none τ => .done taken.reverse τ
      | .done (some (v, after)) τ => takeFrom ev count after (v :: taken) τ
      | .failed e τ => .failed e τ
      | .exhausted => .exhausted

theorem takeFrom_succ (ev : Evaluator) (count : Nat) (c : Cursor) (taken : List Value) :
    takeFrom ev (count + 1) c taken = (next ev c >>= fun
      | none => pure taken.reverse
      | some (v, after) => takeFrom ev count after (v :: taken)) := by
  funext σ
  cases h : next ev c σ with
  | done r τ =>
      rw [Eval.bind_done h, takeFrom, h]
      cases r <;> rfl
  | failed e τ => rw [Eval.bind_failed h, takeFrom, h]
  | exhausted => rw [Eval.bind_exhausted h, takeFrom, h]

/-- Takes all elements, if fuel lasts for the steps to the end. -/
def takeAll (ev : Evaluator) : Nat → Cursor → List Value → Eval (List Value)
  | 0, _, _, _ => .exhausted
  | fuel + 1, c, taken, σ =>
      match next ev c σ with
      | .done none τ => .done taken.reverse τ
      | .done (some (v, after)) τ => takeAll ev fuel after (v :: taken) τ
      | .failed e τ => .failed e τ
      | .exhausted => .exhausted

theorem takeAll_succ (ev : Evaluator) (fuel : Nat) (c : Cursor) (taken : List Value) :
    takeAll ev (fuel + 1) c taken = (next ev c >>= fun
      | none => pure taken.reverse
      | some (v, after) => takeAll ev fuel after (v :: taken)) := by
  funext σ
  cases h : next ev c σ with
  | done r τ =>
      rw [Eval.bind_done h, takeAll, h]
      cases r <;> rfl
  | failed e τ => rw [Eval.bind_failed h, takeAll, h]
  | exhausted => rw [Eval.bind_exhausted h, takeAll, h]

/-- The answers to the first `count` requests for an element: the elements,
and the failure that ended the walk if there was one. After a failure or
the end there is nothing more to ask. -/
def walk (ev : Evaluator) : Nat → Cursor → Store → Outcome Failure (List Value × Option Failure)
  | 0, _, σ => .done ([], none) σ
  | count + 1, c, σ =>
      match next ev c σ with
      | .done none τ => .done ([], none) τ
      | .done (some (v, after)) τ =>
          match walk ev count after τ with
          | .done (values, failure) υ => .done (v :: values, failure) υ
          | outcome => outcome
      | .failed e τ => .done ([], some e) τ
      | .exhausted => .exhausted

end Cursor

/-- What follows a value when the rest of a lazy sequence is forced again
and again, up to `times` times: the values met, and the failure that ended
it if there was one. It ends at the first value that is no lazy sequence. -/
def forceCells (ev : Evaluator) : Nat → Value → Store →
    Outcome Failure (List Value × Option Failure)
  | 0, _, σ => .done ([], none) σ
  | times + 1, v, σ =>
      match forceTail? ev v with
      | none => .done ([], none) σ
      | some forced =>
          match forced σ with
          | .done following τ =>
              match forceCells ev times following τ with
              | .done (values, failure) υ => .done (following :: values, failure) υ
              | outcome => outcome
          | .failed e τ => .done ([], some e) τ
          | .exhausted => .exhausted

end LazyLisp
