import LazyLisp.Proofs.Taking

/-!
# Functions over lists, call by call

`map` and `filter` call a function on the elements of a list.  The calls may
do anything: print, bind names that later calls look up, fail, or not come to
an end.  So what these operators do is said call by call.  `Calls` lists
calls that succeed one after the other, each with the store that it was made
in, which is the one that the call before it left.  `Sweep` says how going
through a list ends: all calls were made, or one of them was the first to
fail, to answer what is not accepted, or not to end.

The two operators differ in which answers they accept and in what they gather
from an element and its answer, and in nothing else.  Both are one loop with
these two as parameters.  What is not called is a matter of demands: the loop
asks for the bodies of the calls in its sweep, in that order, and for no
other evaluation.

## Main results

* `Sweep.exists_sweep` — a list is always gone through in some way.
* `pass_of_sweep` — the loop ends as its sweep does.
* `demands_of_sweep` — and makes no other calls.
* `map_filter_call_by_call` — both operators.
-/

namespace LazyLisp

open Eval Evaluation

/-- An outcome with another result. -/
def Outcome.map {ε α β : Type} (f : α → β) : Outcome ε α → Outcome ε β
  | .done a τ => .done (f a) τ
  | .failed e τ => .failed e τ
  | .exhausted => .exhausted

theorem Eval.bind_pure_apply {α β : Type} (x : Eval α) (f : α → β) (σ : Store) :
    (x >>= fun a => pure (f a)) σ = (x σ).map f := by
  cases hx : x σ with
  | done a τ =>
      rw [Eval.bind_done hx]
      rfl
  | failed e τ =>
      rw [Eval.bind_failed hx]
      rfl
  | exhausted =>
      rw [Eval.bind_exhausted hx]
      rfl

namespace Operator

/-! ## Calls one after the other -/

/-- Calls that all have answers, from the first store to the last one.  Each is
listed with its element and the store it was made in. -/
inductive Calls (call : Value → Eval Value) :
    Store → List (Value × Store) → List Value → Store → Prop where
  | nil {σ : Store} : Calls call σ [] [] σ
  | cons {v answer : Value} {made : List (Value × Store)} {answers : List Value} {σ τ υ : Store}
      (first : call v σ = .done answer τ) (others : Calls call τ made answers υ) :
      Calls call σ ((v, σ) :: made) (answer :: answers) υ

/-- How going through the elements of a list ends, and the calls made up to
there.  The verdict is on answers; the first one with a fault is the last. -/
inductive Sweep (call : Value → Eval Value) (verdict : Value → Option Fault) (σ : Store) :
    List Value → List (Value × Store) → Outcome Failure (List Value) → Prop where
  | done {made : List (Value × Store)} {answers : List Value} {τ : Store}
      (hcalls : Calls call σ made answers τ) (hgood : ∀ a ∈ answers, verdict a = none) :
      Sweep call verdict σ (made.map Prod.fst) made (.done answers τ)
  | failed {made : List (Value × Store)} {answers after : List Value} {υ τ : Store} {v : Value}
      {e : Failure} (hcalls : Calls call σ made answers υ)
      (hgood : ∀ a ∈ answers, verdict a = none) (hlast : call v υ = .failed e τ) :
      Sweep call verdict σ (made.map Prod.fst ++ v :: after) (made ++ [(v, υ)]) (.failed e τ)
  | refused {made : List (Value × Store)} {answers after : List Value} {υ τ : Store}
      {v answer : Value} {fault : Fault} (hcalls : Calls call σ made answers υ)
      (hgood : ∀ a ∈ answers, verdict a = none) (hlast : call v υ = .done answer τ)
      (hbad : verdict answer = some fault) :
      Sweep call verdict σ (made.map Prod.fst ++ v :: after) (made ++ [(v, υ)])
        (.failed (.of fault) τ)
  | exhausted {made : List (Value × Store)} {answers after : List Value} {υ : Store} {v : Value}
      (hcalls : Calls call σ made answers υ) (hgood : ∀ a ∈ answers, verdict a = none)
      (hlast : call v υ = .exhausted) :
      Sweep call verdict σ (made.map Prod.fst ++ v :: after) (made ++ [(v, υ)]) .exhausted

/-- A sweep over the elements after the first one goes on from its call. -/
theorem Sweep.cons {call : Value → Eval Value} {verdict : Value → Option Fault} {σ τ : Store}
    {v answer : Value} {rest : List Value} {made : List (Value × Store)}
    {o : Outcome Failure (List Value)} (first : call v σ = .done answer τ)
    (hanswer : verdict answer = none) (h : Sweep call verdict τ rest made o) :
    Sweep call verdict σ (v :: rest) ((v, σ) :: made) (o.map (answer :: ·)) := by
  cases h with
  | done hcalls hgood =>
      exact .done (.cons first hcalls) (List.forall_mem_cons.mpr ⟨hanswer, hgood⟩)
  | failed hcalls hgood hlast =>
      exact .failed (.cons first hcalls) (List.forall_mem_cons.mpr ⟨hanswer, hgood⟩) hlast
  | refused hcalls hgood hlast hbad =>
      exact .refused (.cons first hcalls) (List.forall_mem_cons.mpr ⟨hanswer, hgood⟩) hlast hbad
  | exhausted hcalls hgood hlast =>
      exact .exhausted (.cons first hcalls) (List.forall_mem_cons.mpr ⟨hanswer, hgood⟩) hlast

/-- A list is gone through in some way, whatever the calls do. -/
theorem Sweep.exists_sweep (call : Value → Eval Value) (verdict : Value → Option Fault)
    (items : List Value) (σ : Store) : ∃ made o, Sweep call verdict σ items made o := by
  induction items generalizing σ with
  | nil => exact ⟨[], _, .done .nil (by simp)⟩
  | cons v rest ih =>
      cases hcall : call v σ with
      | done answer τ =>
          cases hanswer : verdict answer with
          | none =>
              obtain ⟨made, o, h⟩ := ih τ
              exact ⟨_, _, h.cons hcall hanswer⟩
          | some fault => exact ⟨_, _, .refused .nil (by simp) hcall hanswer⟩
      | failed e τ => exact ⟨_, _, .failed .nil (by simp) hcall⟩
      | exhausted => exact ⟨_, _, .exhausted .nil (by simp) hcall⟩

/-! ## One loop for both operators -/

/-- Goes through a list, gathering something or nothing from each element and
the answer of its call. -/
def pass (verdict : Value → Option Fault) (gather : Value → Value → Option Value)
    (call : Value → Eval Value) : List Value → List Value → Eval (List Value)
  | gathered, [] => pure gathered.reverse
  | gathered, v :: rest => do
      let answer ← call v
      match verdict answer with
      | none => pass verdict gather call ((gather v answer).toList ++ gathered) rest
      | some fault => Eval.fail fault

/-- Any answer is gathered. -/
theorem mapOnto_eq_pass (call : Value → Eval Value) (answers items : List Value) :
    mapOnto call answers items = pass (fun _ => none) (fun _ a => some a) call answers items := by
  induction items generalizing answers with
  | nil => rfl
  | cons v rest ih =>
      rw [mapOnto_cons, pass]
      exact bind_congr fun answer => ih (answer :: answers)

/-- Only a boolean is a verdict on an element. -/
def notBoolean : Value → Option Fault
  | .boolean _ => none
  | other => some (.answerNotBoolean other.kind)

/-- The element is kept if the answer is yes. -/
def keep (v : Value) : Value → Option Value
  | .boolean true => some v
  | _ => none

/-- To filter is a pass that keeps the elements with the answer true. -/
theorem filterOnto_eq_pass (call : Value → Eval Value) (kept items : List Value) :
    filterOnto call kept items = pass notBoolean keep call kept items := by
  induction items generalizing kept with
  | nil => rfl
  | cons v rest ih =>
      rw [filterOnto_cons, pass]
      refine bind_congr fun answer => ?_
      cases answer with
      | boolean b =>
          cases b with
          | true => exact ih (v :: kept)
          | false => exact ih kept
      | _ => rfl

/-! ## How the loop ends -/

/-- What is gathered from elements and the answers of their calls, in order. -/
def gatheredFrom (gather : Value → Value → Option Value) (items answers : List Value) :
    List Value :=
  (items.zip answers).filterMap fun (v, answer) => gather v answer

/-- Each answer decides alone what is gathered for its element. -/
theorem gatheredFrom_cons (gather : Value → Value → Option Value) (v answer : Value)
    (items answers : List Value) :
    gatheredFrom gather (v :: items) (answer :: answers) =
      (gather v answer).toList ++ gatheredFrom gather items answers := by
  rw [gatheredFrom, List.zip_cons_cons, List.filterMap_cons]
  cases hgather : gather v answer <;> simp [gatheredFrom, hgather]

section Loop

variable {verdict : Value → Option Fault}

private theorem pass_of_calls (gather : Value → Value → Option Value) {call : Value → Eval Value}
    {σ υ : Store} {made : List (Value × Store)} {answers : List Value}
    (h : Calls call σ made answers υ) (hgood : ∀ a ∈ answers, verdict a = none)
    (gathered rest : List Value) :
    pass verdict gather call gathered (made.map Prod.fst ++ rest) σ =
      pass verdict gather call
        ((gatheredFrom gather (made.map Prod.fst) answers).reverse ++ gathered) rest υ := by
  induction h generalizing gathered with
  | nil => rfl
  | @cons v answer made answers σ τ υ first _ ih =>
      obtain ⟨hanswer, hothers⟩ := List.forall_mem_cons.mp hgood
      rw [List.map_cons, List.cons_append, pass, Eval.bind_done first]
      simp only [hanswer]
      rw [ih hothers, gatheredFrom_cons]
      cases gather v answer <;> simp

/-- The loop ends as its sweep does; after all calls it has what they gave. -/
theorem pass_of_sweep (gather : Value → Value → Option Value) {call : Value → Eval Value}
    {σ : Store} {items : List Value} {made : List (Value × Store)}
    {o : Outcome Failure (List Value)} (h : Sweep call verdict σ items made o) :
    pass verdict gather call [] items σ = o.map (gatheredFrom gather items) := by
  cases h with
  | @done made answers τ hcalls hgood =>
      have hpass := pass_of_calls gather hcalls hgood [] []
      rw [List.append_nil, List.append_nil] at hpass
      rw [hpass, pass, List.reverse_reverse]
      rfl
  | failed hcalls hgood hlast =>
      rw [pass_of_calls gather hcalls hgood, pass, Eval.bind_failed hlast]
      rfl
  | refused hcalls hgood hlast hbad =>
      rw [pass_of_calls gather hcalls hgood, pass, Eval.bind_done hlast]
      simp only [hbad]
      rfl
  | exhausted hcalls hgood hlast =>
      rw [pass_of_calls gather hcalls hgood, pass, Eval.bind_exhausted hlast]
      rfl

/-- A loop that comes to the end of a longer list makes a call on the first element
and goes through the others from there. -/
theorem pass_cons_eq_done {gather : Value → Value → Option Value} {call : Value → Eval Value}
    {v : Value} {rest results : List Value} {σ τ : Store}
    (h : pass verdict gather call [] (v :: rest) σ = .done results τ) :
    ∃ answer υ others, call v σ = .done answer υ ∧ verdict answer = none ∧
      pass verdict gather call [] rest υ = .done others τ ∧
      results = (gather v answer).toList ++ others := by
  obtain ⟨made, o, hsweep⟩ := Sweep.exists_sweep call verdict (v :: rest) σ
  rw [pass_of_sweep gather hsweep] at h
  generalize hitems : v :: rest = items at hsweep h
  cases hsweep with
  | done hcalls hgood =>
      cases hcalls with
      | nil => cases hitems
      | cons first others =>
          cases hitems
          cases h
          obtain ⟨hanswer, hothers⟩ := List.forall_mem_cons.mp hgood
          exact ⟨_, _, _, first, hanswer, pass_of_sweep gather (.done others hothers),
            gatheredFrom_cons ..⟩
  | _ => cases h

end Loop

/-! ## What the loop asks for -/

section Asked

variable {verdict : Value → Option Fault} {call : Evaluator → Value → Eval Value} {ev : Evaluator}
  {asked : Value × Store → List Demand}

/-- Behind calls that have answers, the loop asks for what it asks for there. -/
theorem demands_of_calls (hasked : ∀ v σ, Demands (fun ev => call ev v) ev σ (asked (v, σ)))
    (gather : Value → Value → Option Value) {σ υ : Store} {made : List (Value × Store)}
    {answers rest : List Value} {more : List Demand} (h : Calls (call ev) σ made answers υ)
    (hgood : ∀ a ∈ answers, verdict a = none)
    (hrest : ∀ gathered,
      Demands (fun ev => pass verdict gather (call ev) gathered rest) ev υ more)
    (gathered : List Value) :
    Demands (fun ev => pass verdict gather (call ev) gathered (made.map Prod.fst ++ rest)) ev σ
      (made.flatMap asked ++ more) := by
  induction h generalizing gathered with
  | nil => exact hrest gathered
  | @cons v answer made answers σ τ υ first _ ih =>
      obtain ⟨hanswer, hothers⟩ := List.forall_mem_cons.mp hgood
      rw [List.flatMap_cons, List.append_assoc]
      refine (hasked v σ).bind (fun a τ' hdone => ?_) fun hnone => absurd first (hnone _ _)
      cases first.symm.trans hdone
      simp only [hanswer]
      exact ih hothers hrest _

/-- A call that has no answer, or one that is refused, is the last. -/
theorem demands_last (hasked : ∀ v σ, Demands (fun ev => call ev v) ev σ (asked (v, σ)))
    (gather : Value → Value → Option Value) {σ : Store} {v : Value}
    (hlast : ∀ a τ, call ev v σ = .done a τ → ∃ fault, verdict a = some fault)
    (gathered after : List Value) :
    Demands (fun ev => pass verdict gather (call ev) gathered (v :: after)) ev σ
      (asked (v, σ)) := by
  rw [← List.append_nil (asked (v, σ))]
  refine (hasked v σ).bind (fun a τ hdone => ?_) fun _ => rfl
  obtain ⟨fault, hfault⟩ := hlast a τ hdone
  simp only [hfault]
  exact .const _

/-- The loop asks for what the calls in its sweep ask for, one after the other,
and for nothing else. -/
theorem demands_of_sweep (hasked : ∀ v σ, Demands (fun ev => call ev v) ev σ (asked (v, σ)))
    (gather : Value → Value → Option Value) {σ : Store} {items : List Value}
    {made : List (Value × Store)} {o : Outcome Failure (List Value)}
    (h : Sweep (call ev) verdict σ items made o) :
    Demands (fun ev => pass verdict gather (call ev) [] items) ev σ (made.flatMap asked) := by
  have upTo {made : List (Value × Store)} {answers after : List Value} {υ : Store} {v : Value}
      (hcalls : Calls (call ev) σ made answers υ) (hgood : ∀ a ∈ answers, verdict a = none)
      (hlast : ∀ a τ, call ev v υ = .done a τ → ∃ fault, verdict a = some fault) :
      Demands (fun ev => pass verdict gather (call ev) [] (made.map Prod.fst ++ v :: after)) ev σ
        ((made ++ [(v, υ)]).flatMap asked) := by
    rw [List.flatMap_append, List.flatMap_singleton]
    exact demands_of_calls hasked gather hcalls hgood
      (fun gathered => demands_last hasked gather hlast gathered after) []
  cases h with
  | @done made answers τ hcalls hgood =>
      have hnil (gathered : List Value) :
          Demands (fun ev => pass verdict gather (call ev) gathered []) ev τ [] := .const _
      have hall := demands_of_calls hasked gather hcalls hgood hnil []
      rwa [List.append_nil, List.append_nil] at hall
  | failed hcalls hgood hlast =>
      exact upTo hcalls hgood fun a τ hdone => by cases hlast.symm.trans hdone
  | refused hcalls hgood hlast hbad =>
      refine upTo hcalls hgood fun a τ hdone => ?_
      cases hlast.symm.trans hdone
      exact ⟨_, hbad⟩
  | exhausted hcalls hgood hlast =>
      exact upTo hcalls hgood fun a τ hdone => by cases hlast.symm.trans hdone

end Asked

/-! ## The calls of a function -/

/-- The evaluation that a call of a function on one value asks for: that of the
body, with the parameter bound in a new frame. -/
def bodyDemand (params : List String) (body : Value) (captured : Scope) :
    Value × Store → List Demand
  | (v, σ) =>
      if params.length = 1 then
        [⟨body, .inner σ.frames.size captured, σ.addFrame (.ofParams params [v])⟩]
      else []

private theorem demands_callClosure (params : List String) (body : Value) (captured : Scope)
    (ev : Evaluator) (v : Value) (σ : Store) :
    Demands (fun ev => callClosure ev params body captured [v]) ev σ
      (bodyDemand params body captured (v, σ)) := by
  simp only [bodyDemand, callClosure]
  by_cases hlength : params.length = 1
  · have hbind : bindParams params captured [v] σ =
        .done (.inner σ.frames.size captured) (σ.addFrame (.ofParams params [v])) := by
      have hopen : bindParams params captured [v] =
          Eval.openInner captured (.ofParams params [v]) := if_pos hlength
      rw [hopen]
      rfl
    rw [if_pos hlength]
    refine (Demands.const _).bind (fun inner τ hdone => ?_) fun hnone => absurd hbind (hnone _ _)
    cases hbind.symm.trans hdone
    exact .eval _ _
  · rw [if_neg hlength, bindParams_of_length_ne hlength]
    show Demands _ ev σ ([] ++ [])
    exact (Demands.const _).bind (fun inner τ hdone => by cases hdone) fun _ => rfl

/-! ## Both operators -/

/-- Of answers to the same number of calls, all are gathered. -/
theorem gatheredFrom_answers {items answers : List Value} (h : items.length = answers.length) :
    gatheredFrom (fun _ a => some a) items answers = answers := by
  show (items.zip answers).filterMap (some ∘ Prod.snd) = answers
  rw [List.filterMap_eq_map, List.map_snd_zip (Nat.le_of_eq h.symm)]

private theorem Calls.length_eq {call : Value → Eval Value} {σ τ : Store}
    {made : List (Value × Store)}
    {answers : List Value} (h : Calls call σ made answers τ) : made.length = answers.length := by
  induction h with
  | nil => rfl
  | cons _ _ ih => simp [ih]

section Runs

variable (ev : Evaluator) (scope : Scope) (serial : Nat) (params : List String) (body : Value)
  (captured : Scope) (cells : Chain Value) (σ : Store)

/-- An operator over a list ends as the sweep of its calls does, with what is
gathered from them in a list, and makes no other calls. -/
theorem overList_of_sweep (op : Operator)
    {loop : (Value → Eval Value) → List Value → List Value → Eval (List Value)}
    {verdict : Value → Option Fault} {gather : Value → Value → Option Value}
    (hloop : ∀ call gathered items,
      loop call gathered items = pass verdict gather call gathered items)
    {made : List (Value × Store)} {o : Outcome Failure (List Value)}
    (h : Sweep (fun v => callClosure ev params body captured [v]) verdict σ cells.toList made o) :
    overList op ev loop [.closure serial params body captured, .pair cells] σ =
        o.map (fun answers => .pair (.ofList (gatheredFrom gather cells.toList answers))) ∧
      Demands (fun ev => overList op ev loop [.closure serial params body captured, .pair cells])
        ev σ (made.flatMap (bodyDemand params body captured)) := by
  have hloops (ev : Evaluator) :
      overList op ev loop [.closure serial params body captured, .pair cells] =
        (pass verdict gather (fun v => callClosure ev params body captured [v]) [] cells.toList >>=
          fun results => pure (.pair (.ofList results))) := by
    rw [← hloop]
    rfl
  simp only [hloops]
  constructor
  · rw [Eval.bind_pure_apply, pass_of_sweep gather h]
    cases o <;> rfl
  · have hpass := demands_of_sweep (demands_callClosure params body captured ev) gather h
    have hlist := hpass.bind (f := fun _ results => pure (Value.pair (.ofList results)))
      (fun _ _ _ => .const _) fun _ => rfl
    rwa [List.append_nil] at hlist

/-- What `map` and `filter` do, call by call.  They go through the elements in
order.  Each call is made in the store that the one before it left; the first that
fails, or that answers `filter` something else than a boolean, decides the result
and leaves the store behind, and the bodies of the calls up to there are all that
is evaluated.  When all calls were made, `map` has the list of their answers and
`filter` that of the elements with the answer true. -/
theorem map_filter_call_by_call :
    let f : Value := .closure serial params body captured
    let call (v : Value) : Eval Value := callClosure ev params body captured [v]
    let asked := bodyDemand params body captured
    (∃ made o, Sweep call (fun _ => none) σ cells.toList made o) ∧
    (∀ made o, Sweep call (fun _ => none) σ cells.toList made o →
      run ev scope [f, .pair cells] .map σ = o.map (fun answers => .pair (.ofList answers)) ∧
      Demands (fun ev => run ev scope [f, .pair cells] .map) ev σ (made.flatMap asked)) ∧
    (∃ made o, Sweep call notBoolean σ cells.toList made o) ∧
    ∀ made o, Sweep call notBoolean σ cells.toList made o →
      run ev scope [f, .pair cells] .filter σ =
        o.map (fun answers => .pair (.ofList (gatheredFrom keep cells.toList answers))) ∧
      Demands (fun ev => run ev scope [f, .pair cells] .filter) ev σ (made.flatMap asked) := by
  intro f call asked
  refine ⟨Sweep.exists_sweep .., fun made o h => ?_, Sweep.exists_sweep .., fun made o h =>
    overList_of_sweep ev serial params body captured cells σ .filter filterOnto_eq_pass h⟩
  obtain ⟨hrun, hdemands⟩ :=
    overList_of_sweep ev serial params body captured cells σ .map mapOnto_eq_pass h
  refine ⟨hrun.trans ?_, hdemands⟩
  generalize hitems : cells.toList = items at h
  cases h with
  | done hcalls _ =>
      have hlength := hcalls.length_eq
      simp only [Outcome.map]
      rw [gatheredFrom_answers (by simpa using hlength)]
  | _ => rfl

end Runs

/-- The function that answers its argument, on a list whose second element is no
boolean. -/
theorem map_filter_call_by_call_identity :
    let f : Value := .closure 0 ["x"] (.symbol "x") (.global 0)
    let list : Value := .pair (.ofList [.boolean true, .integer 1, .boolean false])
    let σ : Store := ⟨#[[]], 1, ""⟩
    let first : Store := σ.addFrame [("x", .boolean true)]
    let second : Store := first.addFrame [("x", .integer 1)]
    let third : Store := second.addFrame [("x", .boolean false)]
    run (evaluate 1) (.global 0) [f, list] .map σ = .done list third ∧
      run (evaluate 1) (.global 0) [f, list] .filter σ =
        .failed (.of (.answerNotBoolean .integer)) second ∧
      Demands (fun ev => run ev (.global 0) [f, list] .filter) (evaluate 1) σ
        [⟨.symbol "x", .inner 1 (.global 0), first⟩,
          ⟨.symbol "x", .inner 2 (.global 0), second⟩] := by
  intro f list σ first second third
  obtain ⟨-, hmap, -, hfilter⟩ := map_filter_call_by_call (evaluate 1) (.global 0) 0 ["x"]
    (.symbol "x") (.global 0) (.ofList [.boolean true, .integer 1, .boolean false]) σ
  let call (v : Value) : Eval Value := callClosure (evaluate 1) ["x"] (.symbol "x") (.global 0) [v]
  have hone : call (.boolean true) σ = .done (.boolean true) first := rfl
  have htwo : call (.integer 1) first = .done (.integer 1) second := rfl
  have hthree : call (.boolean false) second = .done (.boolean false) third := rfl
  have hall : Sweep call (fun _ => none) σ [.boolean true, .integer 1, .boolean false]
      [(.boolean true, σ), (.integer 1, first), (.boolean false, second)]
      (.done [.boolean true, .integer 1, .boolean false] third) :=
    .done (.cons hone (.cons htwo (.cons hthree .nil))) fun _ _ => rfl
  have hrefused : Sweep call notBoolean σ [.boolean true, .integer 1, .boolean false]
      [(.boolean true, σ), (.integer 1, first)]
      (.failed (.of (.answerNotBoolean .integer)) second) :=
    .refused (.cons hone .nil) (List.forall_mem_singleton.mpr rfl) htwo rfl
  exact ⟨(hmap _ _ hall).1, hfilter _ _ hrefused⟩

end Operator

end LazyLisp
