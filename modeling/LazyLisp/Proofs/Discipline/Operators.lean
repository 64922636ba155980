import LazyLisp.Proofs.Discipline.Basic

/-!
# Operators keep every discipline up

What an operator answers on data is data again, and what it raises is a
fault about its arguments.  Most operators are functions of values alone, so
that no store comes in.  The others walk a sequence or call a function on
every element of a list; each step of such a loop may know more of the store
than the one before, and what was data stays data.

## Main results

* `takeFrom_safe`, `takeAll_safe` — walking a sequence yields data.
* `mapOnto_safe`, `filterOnto_safe` — so does calling a function on every
  element of a list.
* `run_safe` — every operator maps data to data.
-/

namespace LazyLisp

/-! ## Functions of values alone -/

section Pure

variable {op : Operator} {position : Nat} {v a b : Value} {args : List Value}

theorem expectNumber_answers : Answers (Operator.expectNumber op position v) fun _ => True := by
  cases v <;> first | exact trivial | rfl

theorem expectInteger_answers :
    Answers (Operator.expectInteger op position v) fun _ => True := by
  unfold Operator.expectInteger
  split
  · exact trivial
  · rfl

theorem arithmeticResult_answers {x : Except Number.Fault Number} :
    Answers (Operator.arithmeticResult x) fun _ => True := by
  cases x with
  | ok n => exact trivial
  | error fault => rfl

private theorem foldNumbers_answers {f : Number → Number → Except Number.Fault Number}
    {acc : Number} (items : List Value) :
    Answers (Operator.foldNumbers op f acc position items) fun _ => True := by
  induction items generalizing acc position with
  | nil => exact trivial
  | cons v rest ih =>
      refine expectNumber_answers.bind fun n _ => ?_
      exact arithmeticResult_answers.bind fun next _ => ih

private theorem arithmetic_answers {f : Number → Number → Except Number.Fault Number} :
    Answers (Operator.arithmetic op f args) fun v => v.isAtomic = true := by
  cases args with
  | nil => rfl
  | cons v rest =>
      refine expectNumber_answers.bind fun first _ => ?_
      exact (foldNumbers_answers rest).bind fun result _ => rfl

private theorem remainderOf_answers :
    Answers (Operator.remainderOf args) fun v => v.isAtomic = true := by
  unfold Operator.remainderOf
  split
  · refine expectNumber_answers.bind fun a _ => expectNumber_answers.bind fun b _ => ?_
    exact arithmeticResult_answers.bind fun result _ => rfl
  · rfl

mutual

private theorem equals_answers (a b : Value) : Answers (a.equals b) fun _ => True := by
  unfold Value.equals
  split
  case h_7 =>
      split
      · exact allEqual_answers _ _
      · exact trivial
  case h_8 =>
      split
      · exact cellsEqual_answers _ _
      · exact trivial
  case h_9 => rfl
  all_goals exact trivial
termination_by sizeOf a

theorem allEqual_answers (as bs : List Value) :
    Answers (Value.allEqual as bs) fun _ => True := by
  unfold Value.allEqual
  split
  · split
    · exact allEqual_answers _ _
    · exact equals_answers _ _
  · exact trivial
termination_by sizeOf as

theorem cellsEqual_answers (as : Chain Value) (bs : List Value) :
    Answers (Value.cellsEqual as bs) fun _ => True := by
  unfold Value.cellsEqual
  split
  · exact equals_answers _ _
  · split
    · exact cellsEqual_answers _ _
    · exact equals_answers _ _
  · exact trivial
termination_by sizeOf as

end

private theorem equality_answers : Answers (Operator.equality args) fun v => v.isAtomic = true := by
  unfold Operator.equality
  split
  · exact (equals_answers _ _).bind fun answer _ => rfl
  · rfl

private theorem compareTo_answers : Answers (a.compareTo b) fun _ => True := by
  unfold Value.compareTo
  split
  · split
    · exact trivial
    · rfl
  · exact trivial
  · rfl

private theorem comparison_answers {test : Ordering → Bool} :
    Answers (Operator.comparison op test args) fun v => v.isAtomic = true := by
  unfold Operator.comparison
  split
  · exact compareTo_answers.bind fun order _ => rfl
  · rfl

private theorem emptiness_answers :
    Answers (Operator.emptiness args) fun v => v.isAtomic = true := by
  unfold Operator.emptiness
  split <;> rfl

end Pure

/-! ## Operators that build data -/

namespace Discipline

variable {D : Discipline} {w : D.World} {scope : Scope} {ev : Evaluator}

private theorem consOf_answers (hD : D.Lawful) {args : List Value} (h : ∀ v ∈ args, D.Data w v) :
    Answers (Operator.consOf args) (D.Data w) := by
  unfold Operator.consOf
  have single : ∀ {head}, D.Data w head → D.Data w (.pair (.last head)) := fun {head} hhead =>
    have hitems : ∀ v ∈ [head], D.Data w v := by simpa using hhead
    hD.ofList hitems
  split
  · have hitems : ∀ v ∈ ([] : List Value), D.Data w v := by simp
    exact hD.ofList hitems
  · exact single (h _ (by simp))
  · exact single (h _ (by simp))
  · exact single (h _ (by simp))
  · rename_i head cells hne
    have hcells : cells.isEmpty = false := by
      cases cells with
      | empty => exact absurd rfl hne
      | last _ => rfl
      | cell _ _ => rfl
    exact hD.cell (h head (by simp)) (h (.pair cells) (by simp)) hcells
  · rfl
  · rfl

private theorem firstOf_answers (hD : D.Lawful) {args : List Value} (h : ∀ v ∈ args, D.Data w v) :
    Answers (Operator.firstOf args) (D.Data w) := by
  unfold Operator.firstOf
  split
  · exact hD.lastCell.mp (h _ (by simp))
  · exact (hD.lazyCell (h _ (List.mem_singleton_self _))).1
  · rename_i cells
    split
    · rename_i head hhead
      refine hD.items (h (.pair cells) (by simp)) ?_
      cases cells <;> simp_all [Chain.head?, Chain.toList]
    · rfl
  · rfl
  · rfl

/-- The range from an integer is data, and so is every rest of it. -/
theorem rangeFrom_data (hD : D.Lawful) (low high : Int64) (h : D.Within w scope) :
    D.Data w (Operator.rangeFrom low high scope) := by
  unfold Operator.rangeFrom
  split
  · exact hD.pending (hD.atomic rfl) rfl (hD.range_call (low + 1) high h)
  · exact hD.lastCell.mpr (hD.atomic rfl)

private theorem rangeOf_answers (hD : D.Lawful) (args : List Value) (h : D.Within w scope) :
    Answers (Operator.rangeOf scope args) (D.Data w) := by
  unfold Operator.rangeOf
  split
  · refine expectInteger_answers.bind fun low _ => expectInteger_answers.bind fun high _ => ?_
    exact rangeFrom_data hD low high h
  · rfl

/-- A row of cells that are all there is data if its elements are. -/
theorem ready_data (hD : D.Lawful) (h : D.Within w scope) {items : List Value}
    (hitems : ∀ v ∈ items, D.Data w v) : D.Data w (Value.ready scope.root items) := by
  induction items with
  | nil => exact hD.atomic rfl
  | cons v rest ih =>
      have hv : D.Data w v := hitems v (by simp)
      cases rest with
      | nil => exact hD.lastCell.mpr hv
      | cons next more =>
          have hrest := ih fun u hu => hitems u (by simp [hu])
          have hkind : (Value.ready scope.root (next :: more)).kind = .lazySequence := by
            cases more <;> rfl
          exact hD.ready hv hrest hkind h

/-! ## Walking a sequence -/

/-- What is left of a sequence to walk along is data, or code. -/
def CursorOk (D : Discipline) (w : D.World) : Cursor → Prop
  | .before v => D.Data w v
  | .pending rest scope => D.Code w scope rest

/-- An element and the place after it, or the end. -/
def StepOk (D : Discipline) (w : D.World) (r : Option (Value × Cursor)) : Prop :=
  ∀ v c, r = some (v, c) → D.Data w v ∧ CursorOk D w c

/-- A forced rest is data. -/
theorem forceRest_safe (hD : D.Lawful) (hev : D.Evaluates ev) {rest : Value}
    (h : D.Code w scope rest) :
    Safe D D.Raised w (forceRest ev rest scope) fun w' v => D.Data w' v := by
  refine Safe.bind hD.toGrows (hev.raised h) fun w' v hle hv => ?_
  split
  · exact Safe.pure hD.toGrows hv
  · exact Safe.fail hD.toGrows rfl

private theorem enter_safe (hD : D.Lawful) {v : Value} (h : D.Data w v) :
    Safe D D.Raised w (Cursor.enter v) (StepOk D) := by
  unfold Cursor.enter
  split
  · exact Safe.pure hD.toGrows fun _ _ h => by cases h
  · rename_i head
    refine Safe.pure hD.toGrows fun _ _ heq => ?_
    cases heq
    exact ⟨hD.items h (by simp), hD.atomic rfl⟩
  · rename_i head cells
    refine Safe.pure hD.toGrows fun _ _ heq => ?_
    cases heq
    exact ⟨hD.items h (by simp), hD.tail h⟩
  · refine Safe.pure hD.toGrows fun _ _ heq => ?_
    cases heq
    exact ⟨hD.lastCell.mp h, hD.atomic rfl⟩
  · refine Safe.pure hD.toGrows fun _ _ heq => ?_
    cases heq
    exact hD.lazyCell h
  · exact Safe.pure hD.toGrows fun _ _ h => by cases h
  · exact Safe.fail hD.toGrows rfl

/-- An element that is reached is data, and so is what is left of the sequence. -/
theorem next_safe (hD : D.Lawful) (hev : D.Evaluates ev) {c : Cursor} (h : CursorOk D w c) :
    Safe D D.Raised w (Cursor.next ev c) (StepOk D) := by
  cases c with
  | before v => exact enter_safe hD h
  | pending rest scope =>
      refine Safe.bind hD.toGrows (forceRest_safe hD hev h) fun w' v _ hv => ?_
      exact enter_safe hD hv

/-- A number of elements are taken safely. -/
theorem takeFrom_safe (hD : D.Lawful) (hev : D.Evaluates ev) (count : Nat) {c : Cursor}
    (h : CursorOk D w c) {taken : List Value} (htaken : ∀ v ∈ taken, D.Data w v) :
    Safe D D.Raised w (Cursor.takeFrom ev count c taken) fun w' vs =>
      ∀ v ∈ vs, D.Data w' v := by
  induction count generalizing w c taken with
  | zero => exact Safe.pure hD.toGrows fun v hv => htaken v (List.mem_reverse.mp hv)
  | succ count ih =>
      rw [Cursor.takeFrom_succ]
      refine Safe.bind hD.toGrows (next_safe hD hev h) fun w' r hle hr => ?_
      have htaken' : ∀ v ∈ taken, D.Data w' v := fun v hv => hD.data_mono hle (htaken v hv)
      match r, hr with
      | none, _ => exact Safe.pure hD.toGrows fun v hv => htaken' v (List.mem_reverse.mp hv)
      | some (v, after), hr =>
          obtain ⟨hv, hafter⟩ := hr v after rfl
          exact ih hafter (List.forall_mem_cons.mpr ⟨hv, htaken'⟩)

/-- All elements are taken safely. -/
theorem takeAll_safe (hD : D.Lawful) (hev : D.Evaluates ev) (fuel : Nat) {c : Cursor}
    (h : CursorOk D w c) {taken : List Value} (htaken : ∀ v ∈ taken, D.Data w v) :
    Safe D D.Raised w (Cursor.takeAll ev fuel c taken) fun w' vs =>
      ∀ v ∈ vs, D.Data w' v := by
  induction fuel generalizing w c taken with
  | zero => exact fun _ _ => trivial
  | succ fuel ih =>
      rw [Cursor.takeAll_succ]
      refine Safe.bind hD.toGrows (next_safe hD hev h) fun w' r hle hr => ?_
      have htaken' : ∀ v ∈ taken, D.Data w' v := fun v hv => hD.data_mono hle (htaken v hv)
      match r, hr with
      | none, _ => exact Safe.pure hD.toGrows fun v hv => htaken' v (List.mem_reverse.mp hv)
      | some (v, after), hr =>
          obtain ⟨hv, hafter⟩ := hr v after rfl
          exact ih hafter (List.forall_mem_cons.mpr ⟨hv, htaken'⟩)

private theorem takeOf_safe (hD : D.Lawful) (hev : D.Evaluates ev) (hscope : D.Within w scope)
    {args : List Value} (h : ∀ v ∈ args, D.Data w v) :
    Safe D D.Raised w (Operator.takeOf ev scope args) fun w' v => D.Data w' v := by
  unfold Operator.takeOf
  split
  · rename_i count sequence
    have hcount : Safe D D.Raised w (Eval.ofExcept (Operator.expectInteger .take 1 count))
        fun _ _ => True :=
      Safe.ofExcept hD.toGrows expectInteger_answers fun _ _ => trivial
    refine Safe.bind hD.toGrows hcount fun u n hle _ => ?_
    split
    · exact Safe.fail hD.toGrows rfl
    · split
      · have hc : CursorOk D u (.before sequence) := hD.data_mono hle (h sequence (by simp))
        refine Safe.bind hD.toGrows (takeFrom_safe hD hev _ hc (by simp)) fun w' vs hle' hvs => ?_
        have hscope' := hD.within_mono (hD.le_trans hle hle') hscope
        exact Safe.pure hD.toGrows (ready_data hD hscope' hvs)
      · exact Safe.fail hD.toGrows rfl
  · exact Safe.fail hD.toGrows rfl

private theorem tailOf_safe (hD : D.Lawful) (hev : D.Evaluates ev) {args : List Value}
    (h : ∀ v ∈ args, D.Data w v) :
    Safe D D.Raised w (Operator.tailOf ev args) fun w' v => D.Data w' v := by
  unfold Operator.tailOf
  split
  · rename_i cells
    have hcells := h (.pair cells) (by simp)
    split
    · rename_i rest hrest
      cases cells with
      | empty => cases hrest
      | last head => cases hrest
      | cell head tail =>
          cases hrest
          exact Safe.pure hD.toGrows (hD.tail hcells)
    · exact Safe.pure hD.toGrows (hD.atomic rfl)
  · rename_i v _
    cases v with
    | lastCell head => exact Safe.pure hD.toGrows (hD.atomic rfl)
    | lazyCell head rest captured =>
        exact forceRest_safe hD hev (hD.lazyCell (h _ (List.mem_singleton_self _))).2
    | _ => exact Safe.fail hD.toGrows rfl
  · exact Safe.fail hD.toGrows rfl

/-! ## Calling functions -/

/-- Parameters bound to data make a scope in which the body may be
evaluated. -/
theorem bindParams_safe (hD : D.Lawful) {serial : Nat} {params : List String} {body : Value}
    {captured : Scope} (h : D.Data w (.closure serial params body captured))
    {args : List Value} (hargs : ∀ v ∈ args, D.Data w v) :
    Safe D D.Raised w (bindParams params captured args) fun w' inner =>
      D.Code w' inner body := by
  unfold bindParams
  split
  · rename_i hlen
    intro σ hσ
    obtain ⟨w', hle, hk, hbody⟩ := hD.bindParams hσ h hargs hlen
    exact ⟨w', hle, hk, hbody⟩
  · exact Safe.fail hD.toGrows rfl

private theorem callClosure_safe (hD : D.Lawful) (hev : D.Evaluates ev) {serial : Nat}
    {params : List String} {body : Value} {captured : Scope}
    (h : D.Data w (.closure serial params body captured)) {args : List Value}
    (hargs : ∀ v ∈ args, D.Data w v) :
    Safe D D.Raised w (callClosure ev params body captured args) fun w' v => D.Data w' v :=
  Safe.bind hD.toGrows (bindParams_safe hD h hargs) fun _ _ _ hbody => hev.raised hbody

/-- A function that may be called on data in every later world. -/
def Callable (D : Discipline) (w : D.World) (call : Value → Eval Value) : Prop :=
  ∀ w' v, D.Le w w' → D.Data w' v → Safe D D.Raised w' (call v) fun u a => D.Data u a

/-- What can be called safely now can be called so later. -/
theorem Callable.mono (hD : D.Lawful) {u : D.World} (hle : D.Le u w)
    {call : Value → Eval Value} (h : Callable D u call) : Callable D w call :=
  fun w' v hle' hv => h w' v (hD.le_trans hle hle') hv

/-- A function that is data can be called safely with data. -/
theorem callable_closure (hD : D.Lawful) (hev : D.Evaluates ev) {serial : Nat}
    {params : List String} {body : Value} {captured : Scope}
    (h : D.Data w (.closure serial params body captured)) :
    Callable D w fun v => callClosure ev params body captured [v] :=
  fun _ _ hle hv => callClosure_safe hD hev (hD.data_mono hle h) (by simpa using hv)

/-- The answers of a safe function are data. -/
theorem mapOnto_safe (hD : D.Lawful) {call : Value → Eval Value} (hcall : Callable D w call)
    {answers items : List Value} (hanswers : ∀ v ∈ answers, D.Data w v)
    (hitems : ∀ v ∈ items, D.Data w v) :
    Safe D D.Raised w (Operator.mapOnto call answers items) fun w' vs =>
      ∀ v ∈ vs, D.Data w' v := by
  induction items generalizing w answers with
  | nil => exact Safe.pure hD.toGrows fun v hv => hanswers v (List.mem_reverse.mp hv)
  | cons v rest ih =>
      obtain ⟨hv, hrest⟩ := List.forall_mem_cons.mp hitems
      rw [Operator.mapOnto_cons]
      refine Safe.bind hD.toGrows (hcall w v (hD.le_refl w) hv) fun w' answer hle ha => ?_
      have hanswers' : ∀ u ∈ answer :: answers, D.Data w' u :=
        List.forall_mem_cons.mpr ⟨ha, fun u hu => hD.data_mono hle (hanswers u hu)⟩
      exact ih (hcall.mono hD hle) hanswers' fun u hu => hD.data_mono hle (hrest u hu)

/-- The elements that a safe test keeps are data. -/
theorem filterOnto_safe (hD : D.Lawful) {call : Value → Eval Value} (hcall : Callable D w call)
    {kept items : List Value} (hkept : ∀ v ∈ kept, D.Data w v)
    (hitems : ∀ v ∈ items, D.Data w v) :
    Safe D D.Raised w (Operator.filterOnto call kept items) fun w' vs =>
      ∀ v ∈ vs, D.Data w' v := by
  induction items generalizing w kept with
  | nil => exact Safe.pure hD.toGrows fun v hv => hkept v (List.mem_reverse.mp hv)
  | cons v rest ih =>
      obtain ⟨hv, hrest⟩ := List.forall_mem_cons.mp hitems
      rw [Operator.filterOnto_cons]
      refine Safe.bind hD.toGrows (hcall w v (hD.le_refl w) hv) fun w' answer hle _ => ?_
      have hkept' : ∀ u ∈ kept, D.Data w' u := fun u hu => hD.data_mono hle (hkept u hu)
      have hrest' : ∀ u ∈ rest, D.Data w' u := fun u hu => hD.data_mono hle (hrest u hu)
      split
      · have hv' := hD.data_mono hle hv
        exact ih (hcall.mono hD hle) (List.forall_mem_cons.mpr ⟨hv', hkept'⟩) hrest'
      · exact ih (hcall.mono hD hle) hkept' hrest'
      · exact Safe.fail hD.toGrows rfl

/-- A loop over a list that maps data to data. -/
def LoopOk (D : Discipline)
    (loop : (Value → Eval Value) → List Value → List Value → Eval (List Value)) : Prop :=
  ∀ (w : D.World) (call : Value → Eval Value) (items : List Value), Callable D w call →
    (∀ v ∈ items, D.Data w v) →
    Safe D D.Raised w (loop call [] items) fun w' vs => ∀ v ∈ vs, D.Data w' v

private theorem overList_safe (hD : D.Lawful) (hev : D.Evaluates ev) (op : Operator)
    {loop : (Value → Eval Value) → List Value → List Value → Eval (List Value)}
    (hloop : LoopOk D loop) {args : List Value}
    (h : ∀ v ∈ args, D.Data w v) :
    Safe D D.Raised w (Operator.overList op ev loop args) fun w' v => D.Data w' v := by
  unfold Operator.overList
  split
  · rename_i serial params body captured cells
    have hclosure := h (.closure serial params body captured) (by simp)
    have hcells := h (.pair cells) (by simp)
    have hrun := hloop w _ cells.toList (callable_closure hD hev hclosure)
      fun v hv => hD.items hcells hv
    exact Safe.bind hD.toGrows hrun fun w' vs _ hvs => Safe.pure hD.toGrows (hD.ofList hvs)
  · exact Safe.fail hD.toGrows rfl
  · exact Safe.fail hD.toGrows rfl
  · exact Safe.fail hD.toGrows rfl

/-! ## All of them -/

private theorem printLine_safe (hD : D.Lawful) (args : List Value) :
    Safe D D.Raised w (Operator.printLine args) fun w' v => D.Data w' v :=
  Safe.bind hD.toGrows (Safe.print hD _) fun _ _ _ _ => Safe.pure hD.toGrows (hD.atomic rfl)

private theorem answers_safe (hD : D.Lawful) {x : Except Fault Value} (h : Answers x (D.Data w)) :
    Safe D D.Raised w (Eval.ofExcept x) fun w' v => D.Data w' v :=
  Safe.ofExcept hD.toGrows h fun _ hv => hv

private theorem atomic_safe (hD : D.Lawful) {x : Except Fault Value}
    (h : Answers x fun v => v.isAtomic = true) :
    Safe D D.Raised w (Eval.ofExcept x) fun w' v => D.Data w' v :=
  Safe.ofExcept hD.toGrows h fun _ hv => hD.atomic hv

/-- An operator on data answers data. -/
theorem run_safe (hD : D.Lawful) (hev : D.Evaluates ev) (hscope : D.Within w scope)
    {args : List Value} (h : ∀ v ∈ args, D.Data w v) (op : Operator) :
    Safe D D.Raised w (Operator.run ev scope args op) fun w' v => D.Data w' v := by
  cases op with
  | add | subtract | multiply | divide => exact atomic_safe hD arithmetic_answers
  | remainder => exact atomic_safe hD remainderOf_answers
  | equal => exact atomic_safe hD equality_answers
  | less | lessEqual | greater | greaterEqual => exact atomic_safe hD comparison_answers
  | cons => exact answers_safe hD (consOf_answers hD h)
  | first => exact answers_safe hD (firstOf_answers hD h)
  | tail => exact tailOf_safe hD hev h
  | isEmpty => exact atomic_safe hD emptiness_answers
  | filter =>
      refine overList_safe hD hev .filter (fun u call items hcall hitems => ?_) h
      exact filterOnto_safe hD hcall (by simp) hitems
  | map =>
      refine overList_safe hD hev .map (fun u call items hcall hitems => ?_) h
      exact mapOnto_safe hD hcall (by simp) hitems
  | print => exact printLine_safe hD args
  | range => exact answers_safe hD (rangeOf_answers hD args hscope)
  | take => exact takeOf_safe hD hev hscope h

end Discipline

end LazyLisp
