import LazyLisp.Evaluation.Evaluate
import LazyLisp.Proofs.Direct.Refinement

/-!
# Iterating a sequence and walking it with operators

A program can go through a sequence by itself, with three operators: it asks
whether the sequence is empty, yields the first element if not, and goes on
with the tail.  The iterator that the library has for sequences does the same
with a cursor of its own, which knows of pairs, of lazy cells and of rests that
have not been forced yet.  Here the two are compared request by request.

Both may be asked for an element as often as one likes.  Each is a way to come
from one place to the next, and what is answered to a row of requests is defined
once for all such ways.  A tail is taken when the element after it is asked for,
so that the loop stands either before the test of a sequence or after an element
whose tail is still to be taken.

`Beside` says which places of the two belong together.  One request keeps it,
whatever the evaluator makes of a rest, and all requests follow by induction.

## Main results

* `Stage.Beside.sameStep` — one request gets the same answer, with the same
  effects.
* `walk_eq_summary` — what a walk lists is what is answered to its requests.
* `Cursor.Yields.answers_eq` — a walk that leaves the store alone, request by
  request.
* `answers_eq_loop` — all requests get the same answers, and after a failure or
  the end there is nothing more.
-/

namespace LazyLisp

/-! ## Requests -/

/-- What is answered to a request for an element. -/
inductive Answer where
  | element (v : Value)
  | failure (f : Failure)
  | finished

namespace Answer

/-- Whether an element was answered. -/
def isElement : Answer → Bool
  | element _ => true
  | failure _ | finished => false

/-- The element that was answered. -/
def element? : Answer → Option Value
  | element v => some v
  | failure _ | finished => none

/-- The failure that was answered. -/
def failure? : Answer → Option Failure
  | failure f => some f
  | element _ | finished => none

/-- The elements among answers, and the first failure. -/
def summary (as : List Answer) : List Value × Option Failure :=
  (as.filterMap element?, as.findSome? failure?)

end Answer

section Requests

variable {S : Type}

/-- The answer to a request and the place for the next one.  Past a failure or
the end there is no place. -/
def request (next : S → Eval (Option (Value × S))) : Option S → Eval (Answer × Option S)
  | none, σ => .done (.finished, none) σ
  | some place, σ =>
      match next place σ with
      | .done none τ => .done (.finished, none) τ
      | .done (some (v, after)) τ => .done (.element v, some after) τ
      | .failed f τ => .done (.failure f, none) τ
      | .exhausted => .exhausted

/-- The answers to so many requests. -/
def answers (next : S → Eval (Option (Value × S))) : Nat → Option S → Eval (List Answer)
  | 0, _ => pure []
  | n + 1, place => do
      let (answer, after) ← request next place
      let more ← answers next n after
      return answer :: more

variable {next : S → Eval (Option (Value × S))}

/-- The first request is answered, and the others from the place that it leads to. -/
theorem answers_succ (next : S → Eval (Option (Value × S))) (n : Nat) (place : Option S) :
    answers next (n + 1) place =
      request next place >>= fun r => answers next n r.2 >>= fun more => pure (r.1 :: more) := rfl

/-- The first request is answered, and then the others from where it led. -/
theorem answers_succ_eq_done_iff {n : Nat} {place : Option S} {as : List Answer} {σ τ : Store} :
    answers next (n + 1) place σ = .done as τ ↔
      ∃ answer after υ more, request next place σ = .done (answer, after) υ ∧
        answers next n after υ = .done more τ ∧ as = answer :: more := by
  rw [answers_succ]
  constructor
  · intro h
    cases hrequest : request next place σ with
    | failed f υ => rw [Eval.bind_failed hrequest] at h; cases h
    | exhausted => rw [Eval.bind_exhausted hrequest] at h; cases h
    | done r υ =>
        rw [Eval.bind_done hrequest] at h
        cases hmore : answers next n r.2 υ with
        | failed f ω => rw [Eval.bind_failed hmore] at h; cases h
        | exhausted => rw [Eval.bind_exhausted hmore] at h; cases h
        | done more ω =>
            rw [Eval.bind_done hmore] at h
            cases h
            exact ⟨r.1, r.2, υ, more, rfl, hmore, rfl⟩
  · rintro ⟨answer, after, υ, more, hrequest, hmore, rfl⟩
    rw [Eval.bind_done hrequest, Eval.bind_done hmore]
    rfl

/-- Without a place the answer is always the end, and nothing is done. -/
theorem answers_none (next : S → Eval (Option (Value × S))) (n : Nat) (σ : Store) :
    answers next n none σ = .done (List.replicate n .finished) σ := by
  induction n with
  | zero => rfl
  | succ n ih => exact answers_succ_eq_done_iff.mpr ⟨_, _, _, _, rfl, ih, rfl⟩

/-- A request that is not answered by an element leaves no place. -/
theorem request_spent {place after : Option S} {answer : Answer} {σ τ : Store}
    (h : request next place σ = .done (answer, after) τ) (hanswer : answer.isElement = false) :
    after = none := by
  cases place with
  | none => cases h; rfl
  | some s =>
      cases hnext : next s σ with
      | done found υ =>
          cases found <;> simp only [request, hnext] at h <;> cases h
          · rfl
          · cases hanswer
      | failed f υ => simp only [request, hnext] at h; cases h; rfl
      | exhausted => simp only [request, hnext] at h; cases h

/-- Once an answer was no element, all later ones are the end, and nothing more
is done. -/
theorem answers_fused {n : Nat} {place : Option S} {as : List Answer} {σ τ : Store}
    (h : answers next n place σ = .done as τ) (hspent : ∃ a ∈ as, a.isElement = false) (m : Nat) :
    answers next (n + m) place σ = .done (as ++ List.replicate m .finished) τ := by
  induction n generalizing place as σ with
  | zero =>
      cases h
      simp at hspent
  | succ n ih =>
      obtain ⟨answer, after, υ, more, hrequest, hmore, rfl⟩ := answers_succ_eq_done_iff.mp h
      have hlater : answers next (n + m) after υ =
          .done (more ++ List.replicate m .finished) τ := by
        by_cases helement : answer.isElement = true
        · obtain ⟨a, ha, hanswer⟩ := hspent
          rcases List.mem_cons.mp ha with rfl | hmem
          · rw [helement] at hanswer
            cases hanswer
          · exact ih hmore ⟨a, hmem, hanswer⟩
        · have hnone := request_spent hrequest (Bool.eq_false_iff.mpr helement)
          subst hnone
          rw [answers_none] at hmore ⊢
          cases hmore
          rw [List.replicate_append_replicate]
      rw [Nat.succ_add]
      exact answers_succ_eq_done_iff.mpr ⟨_, _, _, _, hrequest, hlater, rfl⟩

/-- Two ways that do the same at the first place answer the same, if they do so
from there on. -/
theorem answers_succ_congr {T : Type} {next' : T → Eval (Option (Value × T))} {n : Nat}
    {place : Option S} {place' : Option T} {σ : Store}
    (h : request next place σ = .exhausted ∧ request next' place' σ = .exhausted ∨
      ∃ answer after after' τ, request next place σ = .done (answer, after) τ ∧
        request next' place' σ = .done (answer, after') τ ∧
          answers next n after τ = answers next' n after' τ) :
    answers next (n + 1) place σ = answers next' (n + 1) place' σ := by
  rw [answers_succ, answers_succ]
  rcases h with ⟨hleft, hright⟩ | ⟨answer, after, after', τ, hleft, hright, hlater⟩
  · rw [Eval.bind_exhausted hleft, Eval.bind_exhausted hright]
  · rw [Eval.bind_done hleft, Eval.bind_done hright]
    cases hmore : answers next' n after' τ with
    | done more υ => rw [Eval.bind_done hmore, Eval.bind_done (hlater.trans hmore)]
    | failed f υ => rw [Eval.bind_failed hmore, Eval.bind_failed (hlater.trans hmore)]
    | exhausted => rw [Eval.bind_exhausted hmore, Eval.bind_exhausted (hlater.trans hmore)]

end Requests

/-! ## The loop -/

/-- Where a loop over a sequence stands. -/
inductive Stage where
  /-- Before the test whether the sequence is empty. -/
  | testing (s : Value)
  /-- After the first element of the sequence, before its tail is taken. -/
  | yielded (s : Value)

namespace Stage

/-- The first element of a sequence, unless it is empty. -/
def test (ev : Evaluator) (scope : Scope) (s : Value) : Eval (Option (Value × Stage)) := do
  match ← Operator.run ev scope [s] .isEmpty with
  | .boolean false => do
      let v ← Operator.run ev scope [s] .first
      return some (v, .yielded s)
  | _ => return none

/-- The next element: the tail is taken now if an element was yielded before. -/
def next (ev : Evaluator) (scope : Scope) : Stage → Eval (Option (Value × Stage))
  | testing s => test ev scope s
  | yielded s => do
      let rest ← Operator.run ev scope [s] .tail
      test ev scope rest

/-- The loop and the iterator have come to the same place. -/
inductive Beside : Stage → Cursor → Prop where
  | testing {s : Value} (h : s.isSequence = true) : Beside (.testing s) (.before s)
  | last (v : Value) : Beside (.yielded (.pair (.last v))) (.before .terminal)
  | cell (v : Value) (rest : Chain Value) :
      Beside (.yielded (.pair (.cell v rest))) (.before (.pair rest))
  | lastCell (v : Value) : Beside (.yielded (.lastCell v)) (.before .terminal)
  | lazyCell (v rest : Value) (scope : Scope) :
      Beside (.yielded (.lazyCell v rest scope)) (.pending rest scope)

/-- Both find the same element and come to the same place, or both come to the
end, or both fail in the same way; and the stores are the same. -/
inductive SameStep :
    Outcome Failure (Option (Value × Stage)) → Outcome Failure (Option (Value × Cursor)) → Prop
    where
  | element (v : Value) {stage : Stage} {c : Cursor} (h : Beside stage c) (σ : Store) :
      SameStep (.done (some (v, stage)) σ) (.done (some (v, c)) σ)
  | finished (σ : Store) : SameStep (.done none σ) (.done none σ)
  | failed (f : Failure) (σ : Store) : SameStep (.failed f σ) (.failed f σ)
  | exhausted : SameStep .exhausted .exhausted

variable {ev : Evaluator} {scope : Scope}

/-- The test of a sequence finds what the iterator finds there. -/
theorem sameStep_enter {s : Value} (h : s.isSequence = true) (σ : Store) :
    SameStep (test ev scope s σ) (Cursor.enter s σ) := by
  cases s with
  | pair cells =>
      cases cells with
      | empty => exact .finished σ
      | last v => exact .element v (.last v) σ
      | cell v rest => exact .element v (.cell v rest) σ
  | terminal => exact .finished σ
  | lastCell v => exact .element v (.lastCell v) σ
  | lazyCell v rest captured => exact .element v (.lazyCell v rest captured) σ
  | _ => cases h

/-- Only a sequence comes out of a rest that is forced. -/
theorem isSequence_of_forceRest {rest v : Value} {captured : Scope} {σ τ : Store}
    (h : forceRest ev rest captured σ = .done v τ) : v.isSequence = true := by
  unfold forceRest at h
  cases hrest : ev rest captured σ with
  | failed f υ => rw [Eval.bind_failed hrest] at h; cases h
  | exhausted => rw [Eval.bind_exhausted hrest] at h; cases h
  | done u υ =>
      rw [Eval.bind_done hrest] at h
      by_cases hsequence : u.isSequence = true
      · rw [if_pos hsequence] at h
        cases h
        exact hsequence
      · rw [if_neg hsequence] at h
        cases h

/-- From the same place both take one step in the same way. -/
theorem Beside.sameStep {stage : Stage} {c : Cursor} (h : Beside stage c) (σ : Store) :
    SameStep (stage.next ev scope σ) (c.next ev σ) := by
  cases h with
  | testing hs => exact sameStep_enter hs σ
  | last v => exact .finished σ
  | cell v rest =>
      show SameStep (test ev scope (.pair rest) σ) (Cursor.enter (.pair rest) σ)
      exact sameStep_enter rfl σ
  | lastCell v => exact .finished σ
  | lazyCell v rest captured =>
      show SameStep ((forceRest ev rest captured >>= test ev scope) σ)
        ((forceRest ev rest captured >>= Cursor.enter) σ)
      cases hrest : forceRest ev rest captured σ with
      | done s τ =>
          rw [Eval.bind_done hrest, Eval.bind_done hrest]
          exact sameStep_enter (isSequence_of_forceRest hrest) τ
      | failed f τ =>
          rw [Eval.bind_failed hrest, Eval.bind_failed hrest]
          exact .failed f τ
      | exhausted =>
          rw [Eval.bind_exhausted hrest, Eval.bind_exhausted hrest]
          exact .exhausted

/-- From the same place both give the same answers to any number of
requests. -/
theorem Beside.answers_eq {stage : Stage} {c : Cursor} (h : Beside stage c) (n : Nat) (σ : Store) :
    answers (next ev scope) n (some stage) σ = answers (Cursor.next ev) n (some c) σ := by
  induction n generalizing stage c σ with
  | zero => rfl
  | succ n ih =>
      have hstep : SameStep (stage.next ev scope σ) (c.next ev σ) := h.sameStep σ
      apply answers_succ_congr
      simp only [request]
      generalize stage.next ev scope σ = o, c.next ev σ = o' at hstep
      cases hstep with
      | element v hafter τ => exact .inr ⟨_, _, _, _, rfl, rfl, ih hafter τ⟩
      | finished τ => exact .inr ⟨_, _, _, _, rfl, rfl, by rw [answers_none, answers_none]⟩
      | failed f τ => exact .inr ⟨_, _, _, _, rfl, rfl, by rw [answers_none, answers_none]⟩
      | exhausted => exact .inl ⟨rfl, rfl⟩

end Stage

/-! ## The library's iterator -/

/-- Answers behind the end hold no element and no failure. -/
theorem summary_replicate_finished (n : Nat) :
    Answer.summary (List.replicate n .finished) = ([], none) := by
  induction n with
  | zero => rfl
  | succ n ih => exact ih

private theorem summary_failure_replicate (f : Failure) (n : Nat) :
    Answer.summary (.failure f :: List.replicate n .finished) = ([], some f) :=
  congrArg (fun more : List Value × Option Failure => (more.1, some f))
    (summary_replicate_finished n)

/-- A walk lists the elements that are answered to its requests, and the failure
if there was one. -/
theorem walk_eq_summary (ev : Evaluator) (n : Nat) (c : Cursor) (σ : Store) :
    Cursor.walk ev n c σ = (Answer.summary <$> answers (Cursor.next ev) n (some c)) σ := by
  induction n generalizing c σ with
  | zero => rfl
  | succ n ih =>
      rw [map_eq_pure_bind, answers_succ, bind_assoc, Cursor.walk]
      cases hnext : c.next ev σ with
      | exhausted =>
          have hrequest : request (Cursor.next ev) (some c) σ = .exhausted := by
            rw [request, hnext]
          rw [Eval.bind_exhausted hrequest]
      | failed f τ =>
          have hrequest : request (Cursor.next ev) (some c) σ = .done (.failure f, none) τ := by
            rw [request, hnext]
          rw [Eval.bind_done hrequest, bind_assoc, Eval.bind_done (answers_none _ n τ),
            pure_bind, summary_failure_replicate]
          rfl
      | done found τ =>
          cases found with
          | none =>
              have hrequest : request (Cursor.next ev) (some c) σ = .done (.finished, none) τ := by
                rw [request, hnext]
              rw [Eval.bind_done hrequest, bind_assoc, Eval.bind_done (answers_none _ n τ),
                pure_bind, ← List.replicate_succ, summary_replicate_finished]
              rfl
          | some r =>
              obtain ⟨v, after⟩ := r
              have hrequest : request (Cursor.next ev) (some c) σ =
                  .done (.element v, some after) τ := by rw [request, hnext]
              rw [Eval.bind_done hrequest, bind_assoc]
              have hlater := ih after τ
              rw [map_eq_pure_bind] at hlater
              simp only [hlater]
              cases hmore : answers (Cursor.next ev) n (some after) τ with
              | done more υ =>
                  rw [Eval.bind_done hmore, Eval.bind_done hmore]
                  rfl
              | failed f υ => rw [Eval.bind_failed hmore, Eval.bind_failed hmore]
              | exhausted => rw [Eval.bind_exhausted hmore, Eval.bind_exhausted hmore]

/-! ### Walks that leave the store alone -/

/-- From this place the iterator answers these elements and then the end, and
nothing is done to the store. -/
inductive Cursor.Yields (ev : Evaluator) (σ : Store) : Cursor → List Value → Prop where
  | finished {c : Cursor} (h : c.next ev σ = .done none σ) : Yields ev σ c []
  | element {c after : Cursor} {v : Value} {vs : List Value}
      (h : c.next ev σ = .done (some (v, after)) σ) (hafter : Yields ev σ after vs) :
      Yields ev σ c (v :: vs)

section Yields

variable {ev : Evaluator} {σ : Store} {c : Cursor} {vs : List Value}

/-- A request is answered by each element in turn, and by the end ever after. -/
theorem Cursor.Yields.answers_eq (h : c.Yields ev σ vs) (m : Nat) :
    answers (Cursor.next ev) (vs.length + m) (some c) σ =
      .done (vs.map .element ++ List.replicate m .finished) σ := by
  induction h with
  | @finished c hnext =>
      rw [List.length_nil, Nat.zero_add, List.map_nil, List.nil_append]
      cases m with
      | zero => rfl
      | succ m =>
          have hrequest : request (Cursor.next ev) (some c) σ = .done (.finished, none) σ := by
            rw [request, hnext]
          exact answers_succ_eq_done_iff.mpr ⟨_, _, _, _, hrequest, answers_none _ m σ, rfl⟩
  | @element c after v vs hnext _ ih =>
      have hrequest : request (Cursor.next ev) (some c) σ = .done (.element v, some after) σ := by
        rw [request, hnext]
      rw [List.length_cons, Nat.succ_add]
      exact answers_succ_eq_done_iff.mpr ⟨_, _, _, _, hrequest, ih, rfl⟩

/-- With steps for the elements and for the end, all elements are taken. -/
theorem Cursor.Yields.takeAll_eq (h : c.Yields ev σ vs) {fuel : Nat} (hfuel : vs.length < fuel)
    (taken : List Value) :
    Cursor.takeAll ev fuel c taken σ = .done (taken.reverse ++ vs) σ := by
  induction h generalizing fuel taken with
  | finished hnext =>
      obtain ⟨more, rfl⟩ : ∃ more, fuel = more + 1 := ⟨fuel - 1, by omega⟩
      rw [Cursor.takeAll, hnext, List.append_nil]
  | @element c after v vs hnext _ ih =>
      obtain ⟨more, rfl⟩ : ∃ more, fuel = more + 1 := ⟨fuel - 1, by omega⟩
      have hmore : vs.length < more := Nat.lt_of_succ_lt_succ hfuel
      rw [Cursor.takeAll, hnext]
      show Cursor.takeAll ev more after (v :: taken) σ = _
      rw [ih hmore, List.reverse_cons, List.append_assoc, List.singleton_append]

/-- A rest yields what its value does. -/
theorem Cursor.Yields.pending {rest v : Value} {scope : Scope}
    (hrest : forceRest ev rest scope σ = .done v σ) (h : (Cursor.before v).Yields ev σ vs) :
    (Cursor.pending rest scope).Yields ev σ vs := by
  have hnext : (Cursor.pending rest scope).next ev σ = (Cursor.before v).next ev σ :=
    Eval.bind_done hrest
  cases h with
  | finished hend => exact .finished (hnext.trans hend)
  | element helement hafter => exact .element (hnext.trans helement) hafter

/-- A list yields its elements. -/
theorem Cursor.yields_pair (ev : Evaluator) (σ : Store) (cells : Chain Value) :
    (Cursor.before (.pair cells)).Yields ev σ cells.toList := by
  induction cells with
  | empty => exact .finished rfl
  | last v => exact .element rfl (.finished rfl)
  | cell v rest ih => exact .element rfl ih

end Yields

/-- An iterator over a sequence answers every number of requests as the loop
does that tests for emptiness, yields the first element and takes the tail when
the next element is asked for: with the same elements in the same order, the
same failure at the same request, and the same store.  A walk is the list of
these answers.  Once an answer is no element, all later answers are the end, and
nothing more is done. -/
theorem answers_eq_loop (ev : Evaluator) (scope : Scope) {s : Value} (hs : s.isSequence = true)
    (n : Nat) (σ : Store) :
    answers (Cursor.next ev) n (some (.before s)) σ =
        answers (Stage.next ev scope) n (some (.testing s)) σ ∧
      Cursor.walk ev n (.before s) σ =
        (Answer.summary <$> answers (Cursor.next ev) n (some (.before s))) σ ∧
      ∀ as τ, answers (Cursor.next ev) n (some (.before s)) σ = .done as τ →
        (∃ a ∈ as, a.isElement = false) → ∀ m,
          answers (Cursor.next ev) (n + m) (some (.before s)) σ =
            .done (as ++ List.replicate m .finished) τ := by
  have hbeside : Stage.Beside (.testing s) (.before s) := .testing hs
  refine ⟨(hbeside.answers_eq n σ).symm, walk_eq_summary ev n _ σ, fun as τ h hspent m => ?_⟩
  exact answers_fused h hspent m

/-- A lazy sequence whose rest is another one, whose rest in turn is an unbound
name: the third request fails, and later ones are at the end. -/
theorem answers_eq_loop_unbound :
    let rest : Value := .call (.symbol "lazypair") [.integer 2, .symbol "x"] ⟨11, 25⟩
    let s : Value := .lazyCell (.integer 1) rest (.global 0)
    let σ : Store := ⟨#[[]], 0, ""⟩
    let expected : List Answer :=
      [.element (.integer 1), .element (.integer 2), .failure (.of (.unresolved "x"))]
    s.isSequence = true ∧
      answers (Stage.next (Evaluation.evaluate 3) (.global 0)) 3 (some (.testing s)) σ =
        .done expected σ ∧
      Cursor.walk (Evaluation.evaluate 3) 3 (.before s) σ =
        .done ([.integer 1, .integer 2], some (.of (.unresolved "x"))) σ ∧
      ∀ m, answers (Cursor.next (Evaluation.evaluate 3)) (3 + m) (some (.before s)) σ =
        .done (expected ++ List.replicate m .finished) σ := by
  intro rest s σ expected
  have hs : s.isSequence = true := rfl
  have hloop : answers (Stage.next (Evaluation.evaluate 3) (.global 0)) 3 (some (.testing s)) σ =
      .done expected σ := rfl
  obtain ⟨hsame, hwalk, hfused⟩ := answers_eq_loop (Evaluation.evaluate 3) (.global 0) hs 3 σ
  have hanswers := hsame.trans hloop
  refine ⟨hs, hloop, ?_, hfused expected σ hanswers ⟨_, .tail _ (.tail _ (.head _)), rfl⟩⟩
  rw [hwalk, map_eq_pure_bind, Eval.bind_done hanswers]
  rfl

end LazyLisp
