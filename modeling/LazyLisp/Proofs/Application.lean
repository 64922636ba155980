import LazyLisp.Proofs.Direct.Settling
import LazyLisp.Proofs.Iteration

/-!
# Three ways of calling

A function is called by a call that spells its arguments, by an application to
a list, and by an operator that goes through a list.  An operator can be called
in the first two ways.  The first evaluates the arguments, the second walks a
list to its end and takes the elements as they are, and the third has values to
begin with.

What they have in common is the point at which the values of the arguments are
there: from there on each of them calls the function on these values, or runs
the operator on them.  Before that point, arguments that are values already
evaluate to themselves, and a list in memory is walked without any effect.  The
fuel that is spent on the way differs, so the ways are compared by how they end
with enough of it.

A list for which there is still a form is evaluated once, in a scope of its
own.  Its elements are not: a symbol among them is passed as a symbol.

## Main results

* `settles_closure_call_iff`, `settles_operator_call_iff` — a call goes on with
  the values of its arguments.
* `settles_apply_iff` — an application goes on with the elements of its list.
* `calls_agree` — the ways of calling end in the same way.
-/

namespace LazyLisp

open Eval Evaluation

/-! ## Lists and the frames of functions -/

/-- The value is the list of these elements.  The terminal marker is a list
without elements. -/
inductive Value.Lists : Value → List Value → Prop where
  | pair (cells : Chain Value) : Lists (.pair cells) cells.toList
  | terminal : Lists .terminal []

/-- The form that applies what a form names to a list. -/
def Value.applyForm (callee list : Value) (span : Span) : Value :=
  .call (.symbol SpecialForm.apply.name) [callee, list] span

private theorem Value.Lists.isSequence {s : Value} {vs : List Value} (h : s.Lists vs) :
    s.isSequence = true := by
  cases h <;> rfl

private theorem Value.Lists.isPending {s : Value} {vs : List Value} (h : s.Lists vs) :
    s.isPending = false := by
  cases h <;> rfl

namespace Bindings

private theorem put_of_not_mem {name : String} {b : Bindings} (h : name ∉ b.names) (value : Value) :
    put name value b = b ++ [(name, value)] := by
  induction b with
  | nil => rfl
  | cons entry rest ih =>
      obtain ⟨other, v⟩ := entry
      simp only [names, List.map_cons, List.mem_cons, not_or] at h
      rw [put, if_neg (Ne.symm h.1), ih h.2, List.cons_append]

private theorem foldl_put_of_nodup {entries b : Bindings} (hnodup : entries.names.Nodup)
    (hfresh : ∀ name ∈ entries.names, name ∉ b.names) :
    entries.foldl (fun b (name, value) => put name value b) b = b ++ entries := by
  induction entries generalizing b with
  | nil => rw [List.foldl_nil, List.append_nil]
  | cons entry rest ih =>
      obtain ⟨name, value⟩ := entry
      obtain ⟨hhead, hrest⟩ := List.nodup_cons.mp hnodup
      have hmore : ∀ other ∈ names rest, other ∉ names (b ++ [(name, value)]) := by
        intro other hother
        rw [names, List.map_append, List.mem_append, not_or]
        refine ⟨hfresh other (List.mem_cons_of_mem _ hother), ?_⟩
        rintro hname
        cases List.mem_singleton.mp hname
        exact hhead hother
      have hput := put_of_not_mem (hfresh name (List.mem_cons_self ..)) value
      show rest.foldl (fun b (name, value) => put name value b) (put name value b) = _
      rw [hput, ih hrest hmore, List.append_assoc, List.singleton_append]

/-- Distinct parameters are bound to the arguments one by one, in order. -/
theorem ofParams_eq_zip {params : List String} {args : List Value} (hnodup : params.Nodup)
    (hlength : params.length = args.length) : ofParams params args = params.zip args := by
  have hnames : names (params.zip args) = params := List.map_fst_zip (Nat.le_of_eq hlength)
  exact foldl_put_of_nodup (by rwa [hnames]) nofun

end Bindings

/-- The body of a function is evaluated where the parameters are bound to the
arguments as they are. -/
theorem callClosure_of_nodup {params : List String} {args : List Value} (hnodup : params.Nodup)
    (hlength : params.length = args.length) (ev : Evaluator) (body : Value) (captured : Scope) :
    callClosure ev params body captured args =
      Eval.openInner captured (params.zip args) >>= fun inner => ev body inner := by
  rw [callClosure, bindParams, if_pos hlength, Bindings.ofParams_eq_zip hnodup hlength]

/-! ## Values of arguments -/

section Values

variable {scope : Scope} {σ τ υ : Store}

/-- A value that is no form evaluates to itself. -/
theorem evaluate_of_isPending_eq_false {v : Value} (h : v.isPending = false) (n : Nat)
    (scope : Scope) : evaluate (n + 1) v scope = pure v := by
  cases v <;> first | rfl | cases h

/-- What no step is left for ends as itself, in any scope. -/
theorem settles_self {v : Value} (h : v.isPending = false) (scope : Scope) (σ : Store) :
    Settles (fun n => evaluate n v scope) σ (.done v σ) :=
  settles_of_done 1 (congrFun (evaluate_of_isPending_eq_false h 0 scope) σ)

/-- More fuel does not change how the evaluation of arguments ends. -/
theorem steady_arguments (args : List Value) (scope : Scope) :
    Steady fun n => arguments (evaluate n) scope args :=
  fun _ _ hle => (evaluator_refines hle).arguments args

private theorem settles_arguments {vs : List Value} (h : ∀ v ∈ vs, v.isPending = false)
    (scope : Scope)
    (σ : Store) : Settles (fun n => arguments (evaluate n) scope vs) σ (.done vs σ) := by
  have hpure : arguments (evaluate 1) scope vs = pure vs := by
    induction vs with
    | nil => rfl
    | cons v rest ih =>
        obtain ⟨hv, hrest⟩ := List.forall_mem_cons.mp h
        rw [arguments, evaluate_of_isPending_eq_false hv, ih hrest]
        rfl
  exact settles_of_done 1 (congrFun hpure σ)

/-! ### Walking a list -/

private theorem steady_takeAll (c : Cursor) :
    Steady fun n => Cursor.takeAll (evaluate n) n c [] :=
  fun _ _ hle => (evaluator_refines hle).takeAll hle c []

/-- The elements of a list are taken as they are. -/
theorem settles_takeAll {s : Value} {vs : List Value} (h : s.Lists vs) (σ : Store) :
    Settles (fun n => Cursor.takeAll (evaluate n) n (.before s) []) σ (.done vs σ) := by
  cases h with
  | pair cells =>
      have hyields := Cursor.yields_pair (evaluate (cells.toList.length + 1)) σ cells
      exact settles_of_done _ (hyields.takeAll_eq (Nat.lt_succ_self _) [])
  | terminal => exact settles_of_done 1 rfl

/-! ## Calls -/

variable {o : Outcome Fault Value}

/-- Every primitive is called by its own name. -/
theorem primitive?_name (p : Primitive) : primitive? (.symbol p.name) = some p :=
  Primitive.ofName?_name p

private theorem steady_callClosure (params : List String) (body : Value) (captured : Scope)
    (vs : List Value) : Steady fun n => callClosure (evaluate n) params body captured vs :=
  fun _ _ hle => (evaluator_refines hle).callClosure params body captured vs

private theorem steady_run (op : Operator) (scope : Scope) (vs : List Value) :
    Steady fun n => Operator.run (evaluate n) scope vs op :=
  fun _ _ hle => (evaluator_refines hle).run vs op

/-- A call of a function goes on with the values of its arguments. -/
theorem settles_closure_call_iff {serial : Nat} {params : List String} {body : Value}
    {captured : Scope} {args vs : List Value} (span : Span)
    (h : Settles (fun n => arguments (evaluate n) scope args) σ (.done vs τ)) :
    Settles (fun n => evaluate n (.call (.closure serial params body captured) args span) scope)
        σ o ↔
      Settles (fun n => callClosure (evaluate n) params body captured vs) τ o := by
  rw [settles_call_iff,
    ← h.bind_iff (steady_arguments args scope) (steady_callClosure params body captured)]
  refine Settles.congr fun n => ?_
  exact (Agree.within _ _ args span).bind fun values => Agree.within _ _ values span

/-- A call of an operator goes on with the values of its arguments. -/
theorem settles_operator_call_iff (op : Operator) {args vs : List Value} (span : Span)
    (h : Settles (fun n => arguments (evaluate n) scope args) σ (.done vs τ)) :
    Settles (fun n => evaluate n (.call (.symbol op.name) args span) scope) σ o ↔
      Settles (fun n => Operator.run (evaluate n) scope vs op) τ o := by
  have hp : primitive? (.symbol op.name) = some (.operator op) := primitive?_name (.operator op)
  rw [settles_call_iff, ← h.bind_iff (steady_arguments args scope) (steady_run op scope)]
  refine Settles.congr fun n => ?_
  rw [Direct.call, hp]
  exact (Agree.within _ _ args span).bind fun values => Agree.within _ _ values span

/-! ## Applications -/

private theorem steady_appliedTo (form : Value) (scope : Scope) :
    Steady fun n => SpecialForm.appliedTo (evaluate n) scope form :=
  fun _ _ hle => (evaluator_refines hle).appliedTo form

private theorem steady_applyValues (f : Value) (scope : Scope) (vs : List Value) :
    Steady fun n => Direct.applyValues (evaluate n) scope f vs :=
  fun _ _ hle => (evaluator_refines hle).applyValues f vs

/-- A list in memory is itself what a function is applied to. -/
theorem settles_appliedTo_self {s : Value} {vs : List Value} (h : s.Lists vs) (scope : Scope)
    (σ : Store) :
    Settles (fun n => SpecialForm.appliedTo (evaluate n) scope s) σ (.done s σ) := by
  have hpure : SpecialForm.appliedTo (evaluate 0) scope s = pure s := by
    rw [SpecialForm.appliedTo, if_neg (by simp [h.isPending])]
  exact settles_of_done 0 (congrFun hpure σ)

/-- An application goes on with the elements of its list. -/
theorem settles_apply_iff {f form s : Value} {vs : List Value} (span : Span)
    (hlist : Settles (fun n => SpecialForm.appliedTo (evaluate n) scope form) σ (.done s τ))
    (hs : s.Lists vs) :
    Settles (fun n => evaluate n (.applyForm f form span) scope) σ o ↔
      Settles (fun n => Direct.applyValues (evaluate n) scope f vs) τ o := by
  have hafter (s : Value) : Steady fun n => if s.isSequence then
      Cursor.takeAll (evaluate n) n (.before s) [] >>= Direct.applyValues (evaluate n) scope f
      else Eval.fail (.notSequence (.special .apply) s.kind) := by
    intro n m hle
    by_cases hsequence : s.isSequence = true
    · simp only [if_pos hsequence]
      exact (steady_takeAll _ n m hle).bind fun vs => steady_applyValues f scope vs n m hle
    · simp only [if_neg hsequence]
      exact .refl _
  have hwalk : Settles (fun n => Direct.applyOf n (evaluate n) scope [f, form]) σ o ↔
      Settles (fun n => Direct.applyValues (evaluate n) scope f vs) τ o := by
    rw [← (settles_takeAll hs τ).bind_iff (steady_takeAll _) (steady_applyValues f scope)]
    refine (hlist.bind_iff (steady_appliedTo form scope) hafter).trans ?_
    simp only [if_pos hs.isSequence]
  exact (settles_special_iff .apply).trans hwalk

/-- Applied to a list, an operator is run on its elements. -/
theorem applyValues_operator (ev : Evaluator) (scope : Scope) (op : Operator) (vs : List Value) :
    Direct.applyValues ev scope (.symbol op.name) vs = op.run ev scope vs := by
  rw [Direct.applyValues, show Primitive.ofName? op.name = some (.operator op) from
    Primitive.ofName?_name (.operator op)]

/-- Any other form is evaluated where the walk along the list has ended, and the
function that it names is called on the elements. -/
theorem settles_applyValues_iff {f : Value} {serial : Nat} {params : List String} {body : Value}
    {captured : Scope} {vs : List Value} (hp : primitive? f = none)
    (hf : Settles (fun n => evaluate n f scope) σ
      (.done (.closure serial params body captured) τ)) :
    Settles (fun n => Direct.applyValues (evaluate n) scope f vs) σ o ↔
      Settles (fun n => callClosure (evaluate n) params body captured vs) τ o := by
  have hcallee (v : Value) : Steady fun n => Direct.applyCallee (evaluate n) vs v :=
    fun _ _ hle => (evaluator_refines hle).applyCallee vs v
  have honward : Settles (fun n => evaluate n f scope >>= Direct.applyCallee (evaluate n) vs) σ o ↔
      Settles (fun n => callClosure (evaluate n) params body captured vs) τ o :=
    hf.bind_iff (steady_evaluate f scope) hcallee
  by_cases hpending : f.isPending = true
  · rw [← honward]
    refine Settles.congr fun n => ?_
    cases f with
    | symbol name =>
        rw [Direct.applyValues, show Primitive.ofName? name = none from hp]
        exact .refl _
    | call callee args span => exact .refl _
    | _ => cases hpending
  · -- a function in its place stands for itself
    cases hf.unique (steady_evaluate f scope) (settles_self (Bool.eq_false_iff.mpr hpending) _ σ)
    exact .rfl

end Values

/-- A function gets the same values in three ways: by a call that spells them,
by an application to a list of them, and at once.  An operator gets them in the
first two.  Each ends if another one does, with the same value or the same
fault, and with the same store and printed text.  The elements of a list are
passed on as they are, whatever they are, and are bound one by one in a new
frame: only the form of the list is evaluated, and that of the function. -/
theorem calls_agree (scope : Scope) (σ : Store) (o : Outcome Fault Value) :
    (∀ serial params body captured vs list span span', (∀ v ∈ vs, v.isPending = false) →
      list.Lists vs →
        let c : Value := .closure serial params body captured
        (Settles (fun n => evaluate n (.call c vs span) scope) σ o ↔
          Settles (fun n => callClosure (evaluate n) params body captured vs) σ o) ∧
        (Settles (fun n => evaluate n (.applyForm c list span') scope) σ o ↔
          Settles (fun n => callClosure (evaluate n) params body captured vs) σ o)) ∧
    (∀ (op : Operator) vs list span span', (∀ v ∈ vs, v.isPending = false) → list.Lists vs →
      (Settles (fun n => evaluate n (.call (.symbol op.name) vs span) scope) σ o ↔
        Settles (fun n => evaluate n (.applyForm (.symbol op.name) list span') scope) σ o)) ∧
    ∀ f form list vs τ span,
      Settles (fun n => SpecialForm.appliedTo (evaluate n) scope form) σ (.done list τ) →
      list.Lists vs →
        (∀ op : Operator, f = .symbol op.name →
          (Settles (fun n => evaluate n (.applyForm f form span) scope) σ o ↔
            Settles (fun n => Operator.run (evaluate n) scope vs op) τ o)) ∧
        ∀ serial params body captured υ, primitive? f = none →
          Settles (fun n => evaluate n f scope) τ (.done (.closure serial params body captured) υ) →
            (Settles (fun n => evaluate n (.applyForm f form span) scope) σ o ↔
              Settles (fun n => callClosure (evaluate n) params body captured vs) υ o) ∧
            (params.Nodup → params.length = vs.length → ∀ ev,
              callClosure ev params body captured vs =
                Eval.openInner captured (params.zip vs) >>= fun inner => ev body inner) := by
  refine ⟨?_, ?_, ?_⟩
  · intro serial params body captured vs list span span' hvs hlist c
    refine ⟨settles_closure_call_iff span (settles_arguments hvs scope σ), ?_⟩
    rw [settles_apply_iff span' (settles_appliedTo_self hlist scope σ) hlist]
    exact settles_applyValues_iff rfl (settles_self rfl scope σ)
  · intro op vs list span span' hvs hlist
    rw [settles_operator_call_iff op span (settles_arguments hvs scope σ),
      settles_apply_iff span' (settles_appliedTo_self hlist scope σ) hlist]
    simp only [applyValues_operator]
  · intro f form list vs τ span hform hlist
    have happly := settles_apply_iff (f := f) (o := o) span hform hlist
    refine ⟨?_, fun serial params body captured υ hp hf => ⟨?_, ?_⟩⟩
    · rintro op rfl
      simpa only [applyValues_operator] using happly
    · exact happly.trans (settles_applyValues_iff hp hf)
    · exact fun hnodup hlength ev => callClosure_of_nodup hnodup hlength ev body captured

/-- The function that answers its argument, and addition.  In a list that a name
stands for, the element is a name as well, and that one is never looked up. -/
theorem calls_agree_identity :
    let identity : Value := .closure 0 ["x"] (.symbol "x") (.global 0)
    let five : Value := .pair (.last (.integer 5))
    let numbers : Value := .pair (.ofList [.integer 1, .integer 2])
    let names : Value := .pair (.last (.symbol "y"))
    let σ : Store := ⟨#[[("id", identity), ("names", names)]], 1, ""⟩
    let s : Scope := .global 0
    five.Lists [.integer 5] ∧ numbers.Lists [.integer 1, .integer 2] ∧
      names.Lists [.symbol "y"] ∧
      Settles (fun n => evaluate n (.call identity [.integer 5] ⟨0, 6⟩) s) σ
        (.done (.integer 5) (σ.addFrame [("x", .integer 5)])) ∧
      Settles (fun n => evaluate n (.applyForm identity five ⟨0, 9⟩) s) σ
        (.done (.integer 5) (σ.addFrame [("x", .integer 5)])) ∧
      Settles (fun n => evaluate n (.applyForm (.symbol "+") numbers ⟨0, 9⟩) s) σ
        (.done (.integer 3) σ) ∧
      Settles (fun n => SpecialForm.appliedTo (evaluate n) s (.symbol "names")) σ
        (.done names (σ.addFrame [])) ∧
      Settles (fun n => evaluate n (.symbol "id") s) (σ.addFrame [])
        (.done identity (σ.addFrame [])) ∧
      Settles (fun n => evaluate n (.applyForm (.symbol "id") (.symbol "names") ⟨0, 16⟩) s) σ
        (.done (.symbol "y") ((σ.addFrame []).addFrame [("x", .symbol "y")])) := by
  intro identity five numbers names σ s
  have hfive : five.Lists [.integer 5] := .pair _
  have hnumbers : numbers.Lists [.integer 1, .integer 2] := .pair _
  have hnames : names.Lists [.symbol "y"] := .pair _
  have hvalues : ∀ v ∈ [Value.integer 5], v.isPending = false :=
    List.forall_mem_singleton.mpr rfl
  have hsummands : ∀ v ∈ [Value.integer 1, .integer 2], v.isPending = false :=
    List.forall_mem_cons.mpr ⟨rfl, List.forall_mem_singleton.mpr rfl⟩
  have hclosure : Settles (fun n => callClosure (evaluate n) ["x"] (.symbol "x") s [.integer 5]) σ
      (.done (.integer 5) (σ.addFrame [("x", .integer 5)])) := settles_of_done 1 rfl
  have hsum : Settles (fun n => evaluate n (.call (.symbol "+") [.integer 1, .integer 2] ⟨0, 7⟩) s)
      σ (.done (.integer 3) σ) := settles_of_done 2 rfl
  have hlist : Settles (fun n => SpecialForm.appliedTo (evaluate n) s (.symbol "names")) σ
      (.done names (σ.addFrame [])) := settles_of_done 1 rfl
  have hid : Settles (fun n => evaluate n (.symbol "id") s) (σ.addFrame [])
      (.done identity (σ.addFrame [])) := settles_of_done 1 rfl
  obtain ⟨hcalls, -, -⟩ := calls_agree s σ (.done (.integer 5) (σ.addFrame [("x", .integer 5)]))
  obtain ⟨hcall, happly⟩ :=
    hcalls 0 ["x"] (.symbol "x") (.global 0) [.integer 5] five ⟨0, 6⟩ ⟨0, 9⟩ hvalues hfive
  obtain ⟨-, hoperators, -⟩ := calls_agree s σ (.done (.integer 3) σ)
  have hadd := hoperators .add [.integer 1, .integer 2] numbers ⟨0, 7⟩ ⟨0, 9⟩ hsummands hnumbers
  obtain ⟨-, -, happlied⟩ := calls_agree s σ
    (.done (.symbol "y") ((σ.addFrame []).addFrame [("x", .symbol "y")]))
  obtain ⟨hpassed, -⟩ := (happlied (.symbol "id") (.symbol "names") names [.symbol "y"] _ ⟨0, 16⟩
    hlist hnames).2 0 ["x"] (.symbol "x") (.global 0) _ (by decide) hid
  exact ⟨hfive, hnumbers, hnames, hcall.mpr hclosure, happly.mpr hclosure, hadd.mp hsum, hlist, hid,
    hpassed.mpr (settles_of_done 1 rfl)⟩

end LazyLisp
