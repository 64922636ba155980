import LazyLisp.Proofs.Mirror.Basic

/-!
# Operators mirror themselves

An operator on the images of values does what it does on the values.  Those
that are functions of values alone were looked at before; what is left are the
ones that walk a sequence, call a function on every element of a list, or
print.  A place in a sequence has an image as a value has, and each loop is by
induction on what it goes through.

## Main results

* `Reflects.takeFrom`, `Reflects.takeAll` — walking a sequence.
* `Reflects.mapOnto`, `Reflects.filterOnto` — calling a function on every
  element of a list.
* `Reflects.run` — every operator.
-/

namespace LazyLisp

/-- The place in the image of a sequence. -/
def Cursor.mapScopes (g : Scope → Scope) : Cursor → Cursor
  | .before v => .before (v.mapScopes g)
  | .pending rest scope => .pending (rest.mapScopes g) (g scope)

/-- An element and the place after it, in the image of a sequence. -/
def Cursor.mapFound (g : Scope → Scope) (found : Option (Value × Cursor)) :
    Option (Value × Cursor) :=
  found.map fun r => (r.1.mapScopes g, r.2.mapScopes g)

/-! ## Wrong numbers of arguments -/

/-- With a wrong number of arguments no list is looked at. -/
theorem Operator.overList_of_length_ne {op : Operator} {ev : Evaluator}
    {loop : (Value → Eval Value) → List Value → List Value → Eval (List Value)}
    {args : List Value} (h : args.length ≠ 2) :
    overList op ev loop args = Eval.fail (op.arityFault args) := by
  match args with
  | [_, _] => exact absurd rfl h
  | [] | [_] | _ :: _ :: _ :: _ => simp only [overList]

theorem Operator.tailOf_of_length_ne {ev : Evaluator} {args : List Value} (h : args.length ≠ 1) :
    tailOf ev args = Eval.fail (Operator.tail.arityFault args) := by
  match args with
  | [_] => exact absurd rfl h
  | [] | _ :: _ :: _ => simp only [tailOf]

theorem SpecialForm.defineOf_of_length_ne {ev : Evaluator} {scope : Scope} {args : List Value}
    (h : args.length ≠ 2) :
    defineOf ev scope args = Eval.fail (.primitiveArity (.special .define) args.length) := by
  match args with
  | [_, _] => exact absurd rfl h
  | [] | [_] | _ :: _ :: _ :: _ => simp only [defineOf]

namespace Discipline.Reflects

variable {D : Discipline} {M : Mirror} {ev : Evaluator} {w : D.World} {scope : Scope}

/-! ## Walking a sequence -/

section Walking

variable (h : D.Reflects M ev)

include h

theorem forceRest {rest : Value} (hrest : D.Code w scope rest) :
    Mirrors D M w M.value (forceRest ev rest scope)
      (LazyLisp.forceRest ev (M.value rest) (M.image scope)) := by
  refine h.bind_evaluate hrest fun u v _ _ => ?_
  rw [Value.isSequence_mapScopes, Value.kind_mapScopes]
  split
  · exact .pure v
  · exact .fail (.restNotSequence v.kind)

omit h in
/-- What was gathered, the latest first, is put in order. -/
theorem reversed (vs : List Value) :
    Mirrors D M w M.values (pure vs.reverse) (pure (M.values vs).reverse) := by
  rw [← List.map_reverse]
  exact .pure vs.reverse

omit h in
private theorem enter (v : Value) :
    Mirrors D M w (Cursor.mapFound M.image) (Cursor.enter v) (Cursor.enter (M.value v)) := by
  cases v with
  | pair cells =>
      cases cells with
      | empty => exact .pure none
      | last v => exact .pure (some (v, Cursor.before .terminal))
      | cell v rest => exact .pure (some (v, Cursor.before (.pair rest)))
  | terminal => exact .pure none
  | lastCell head => exact .pure (some (head, Cursor.before .terminal))
  | lazyCell head rest scope => exact .pure (some (head, Cursor.pending rest scope))
  | _ => exact .fail (.notWalkable _)

/-- The next element is mirrored, and so is what follows it. -/
theorem next {c : Cursor} (hc : CursorOk D w c) :
    Mirrors D M w (Cursor.mapFound M.image) (Cursor.next ev c)
      (Cursor.next ev (c.mapScopes M.image)) := by
  cases c with
  | before v => exact enter v
  | pending rest scope =>
      exact Mirrors.bind (h.forceRest hc) (forceRest_safe h.lawful h.safe hc) fun _ v _ _ => enter v

theorem takeFrom (count : Nat) {c : Cursor} (hc : CursorOk D w c) (taken : List Value) :
    Mirrors D M w M.values (Cursor.takeFrom ev count c taken)
      (Cursor.takeFrom ev count (c.mapScopes M.image) (M.values taken)) := by
  induction count generalizing w c taken with
  | zero => exact reversed taken
  | succ count ih =>
      rw [Cursor.takeFrom_succ, Cursor.takeFrom_succ]
      refine Mirrors.bind (h.next hc) (next_safe h.lawful h.safe hc) fun u found _ hfound => ?_
      cases found with
      | none => exact reversed taken
      | some r => exact ih (hfound r.1 r.2 rfl).2 (r.1 :: taken)

/-- All elements are mirrored. -/
theorem takeAll (fuel : Nat) {c : Cursor} (hc : CursorOk D w c) (taken : List Value) :
    Mirrors D M w M.values (Cursor.takeAll ev fuel c taken)
      (Cursor.takeAll ev fuel (c.mapScopes M.image) (M.values taken)) := by
  induction fuel generalizing w c taken with
  | zero => exact fun _ _ _ _ => .exhausted
  | succ fuel ih =>
      rw [Cursor.takeAll_succ, Cursor.takeAll_succ]
      refine Mirrors.bind (h.next hc) (next_safe h.lawful h.safe hc) fun u found _ hfound => ?_
      cases found with
      | none => exact reversed taken
      | some r => exact ih (hfound r.1 r.2 rfl).2 (r.1 :: taken)

end Walking

/-! ## Calling functions -/

section Calling

variable (h : D.Reflects M ev)

include h

theorem bindParams {serial : Nat} {params : List String} {body : Value} {captured : Scope}
    (hclosure : D.Data w (.closure serial params body captured)) (args : List Value) :
    Mirrors D M w M.image (bindParams params captured args)
      (LazyLisp.bindParams params (M.image captured) (M.values args)) := by
  unfold LazyLisp.bindParams
  rw [List.length_map, ← Bindings.ofParams_mapScopes]
  split
  · exact .openInner h.mirror (h.mirror.closure hclosure) _
  · exact .fail (.closureArity params.length args.length)

private theorem callClosure {serial : Nat} {params : List String} {body : Value} {captured : Scope}
    (hclosure : D.Data w (.closure serial params body captured)) {args : List Value}
    (hargs : ∀ v ∈ args, D.Data w v) :
    Mirrors D M w M.value (callClosure ev params body captured args)
      (LazyLisp.callClosure ev params (M.value body) (M.image captured) (M.values args)) :=
  Mirrors.bind (h.bindParams hclosure args) (bindParams_safe h.lawful hclosure hargs)
    fun u inner _ hbody => h.follows u inner body hbody

end Calling

/-- Two functions that may be called on data and do the same in every later
world, up to images. -/
def Alike (D : Discipline) (M : Mirror) (w : D.World) (call call' : Value → Eval Value) : Prop :=
  ∀ w' v, D.Le w w' → D.Data w' v → Mirrors D M w' M.value (call v) (call' (M.value v))

section Lists

variable {call call' : Value → Eval Value}

private theorem alike_closure (h : D.Reflects M ev) {serial : Nat} {params : List String}
    {body : Value} {captured : Scope} (hclosure : D.Data w (.closure serial params body captured)) :
    Alike D M w (fun v => LazyLisp.callClosure ev params body captured [v])
      (fun v => LazyLisp.callClosure ev params (M.value body) (M.image captured) [v]) :=
  fun _ _ hle hv => h.callClosure (h.lawful.data_mono hle hclosure) (by simpa using hv)

theorem Alike.mono (hD : D.Lawful) {u : D.World} (hle : D.Le u w) (hcall : Alike D M u call call') :
    Alike D M w call call' :=
  fun w' v hle' hv => hcall w' v (hD.le_trans hle hle') hv

/-- The answers of a mirrored function are mirrored. -/
theorem mapOnto (hD : D.Lawful) (hcall : Alike D M w call call') (hsafe : Callable D w call)
    {items : List Value} (hitems : ∀ v ∈ items, D.Data w v) (answers : List Value) :
    Mirrors D M w M.values (Operator.mapOnto call answers items)
      (Operator.mapOnto call' (M.values answers) (M.values items)) := by
  induction items generalizing w answers with
  | nil => exact reversed answers
  | cons v rest ih =>
      obtain ⟨hv, hrest⟩ := List.forall_mem_cons.mp hitems
      rw [Mirror.values_cons, Operator.mapOnto_cons, Operator.mapOnto_cons]
      refine Mirrors.bind (hcall w v (hD.le_refl w) hv) (hsafe w v (hD.le_refl w) hv)
        fun u answer hle _ => ?_
      exact ih (hcall.mono hD hle) (hsafe.mono hD hle) (fun v hv => hD.data_mono hle (hrest v hv))
        (answer :: answers)

/-- The elements that a mirrored test keeps are mirrored. -/
theorem filterOnto (hD : D.Lawful) (hcall : Alike D M w call call') (hsafe : Callable D w call)
    {items : List Value} (hitems : ∀ v ∈ items, D.Data w v) (kept : List Value) :
    Mirrors D M w M.values (Operator.filterOnto call kept items)
      (Operator.filterOnto call' (M.values kept) (M.values items)) := by
  induction items generalizing w kept with
  | nil => exact reversed kept
  | cons v rest ih =>
      obtain ⟨hv, hrest⟩ := List.forall_mem_cons.mp hitems
      rw [Mirror.values_cons, Operator.filterOnto_cons, Operator.filterOnto_cons]
      refine Mirrors.bind (hcall w v (hD.le_refl w) hv) (hsafe w v (hD.le_refl w) hv)
        fun u answer hle _ => ?_
      have hmore := ih (hcall.mono hD hle) (hsafe.mono hD hle)
        fun v hv => hD.data_mono hle (hrest v hv)
      cases answer with
      | boolean b =>
          cases b with
          | true => exact hmore (v :: kept)
          | false => exact hmore kept
      | _ => exact .fail (.answerNotBoolean _)

/-- A loop over a list that calls alike do alike. -/
def LoopAlike (D : Discipline) (M : Mirror)
    (loop : (Value → Eval Value) → List Value → List Value → Eval (List Value)) : Prop :=
  ∀ (w : D.World) (call call' : Value → Eval Value) (items : List Value),
    Alike D M w call call' → Callable D w call → (∀ v ∈ items, D.Data w v) →
    Mirrors D M w M.values (loop call [] items) (loop call' [] (M.values items))

end Lists

section All

variable (h : D.Reflects M ev)

include h

private theorem overList (op : Operator)
    {loop : (Value → Eval Value) → List Value → List Value → Eval (List Value)}
    (hloop : LoopAlike D M loop) (hsafe : LoopOk D loop) {args : List Value}
    (hargs : ∀ v ∈ args, D.Data w v) :
    Mirrors D M w M.value (Operator.overList op ev loop args)
      (Operator.overList op ev loop (M.values args)) := by
  match args with
  | [f, list] =>
      cases f with
      | closure serial params body captured =>
          cases list with
          | pair cells =>
              have hclosure := hargs (.closure serial params body captured) (by simp)
              have hcells := hargs (.pair cells) (by simp)
              have hitems : ∀ v ∈ cells.toList, D.Data w v := fun v hv => h.lawful.items hcells hv
              have hcallable := callable_closure h.lawful h.safe hclosure
              have hrun := hloop w _ _ cells.toList (h.alike_closure hclosure) hcallable hitems
              rw [Mirror.values, ← Value.toList_mapCellScopes] at hrun
              refine Mirrors.bind hrun (hsafe w _ _ hcallable hitems) fun u answers _ _ => ?_
              show Mirrors D M u M.value (pure (Value.pair (.ofList answers)))
                (pure (Value.pair (.ofList (M.values answers))))
              rw [← Value.mapCellScopes_ofList]
              exact .pure (Value.pair (.ofList answers))
          | _ => exact .fail (.notPair op _)
      | _ => exact .fail (.notFunction op _)
  | [] | [_] | _ :: _ :: _ :: _ =>
      rw [Operator.overList_of_length_ne (by simp), Operator.overList_of_length_ne (by simp)]
      exact .arity (.operator op) _

private theorem tailOf {args : List Value} (hargs : ∀ v ∈ args, D.Data w v) :
    Mirrors D M w M.value (Operator.tailOf ev args) (Operator.tailOf ev (M.values args)) := by
  match args with
  | [v] =>
      cases v with
      | pair cells =>
          cases cells with
          | empty | last head => exact .pure Value.terminal
          | cell head rest => exact .pure (Value.pair rest)
      | lastCell head => exact .pure Value.terminal
      | lazyCell head rest captured =>
          exact h.forceRest (h.lawful.lazyCell (hargs _ (List.mem_singleton_self _))).2
      | _ => exact .fail (.notPair .tail _)
  | [] | _ :: _ :: _ =>
      rw [Operator.tailOf_of_length_ne (by simp), Operator.tailOf_of_length_ne (by simp)]
      exact .arity (.operator .tail) _

private theorem takeOf {args : List Value} (hargs : ∀ v ∈ args, D.Data w v) :
    Mirrors D M w M.value (Operator.takeOf ev scope args)
      (Operator.takeOf ev (M.image scope) (M.values args)) := by
  match args with
  | [count, sequence] =>
      have hcount : Safe D D.Raised w (Eval.ofExcept (Operator.expectInteger .take 1 count))
          fun _ _ => True := Safe.ofExcept h.lawful.toGrows expectInteger_answers fun _ _ => trivial
      refine Mirrors.bind (.ofExcept expectInteger_rescopes) hcount fun u n hle _ => ?_
      show Mirrors D M u M.value (if n.toInt < 0 then _ else _) (if n.toInt < 0 then _ else _)
      rw [Value.isSequence_mapScopes, Value.kind_mapScopes]
      split
      · exact .fail (.negativeCount n)
      · split
        · have hcursor : CursorOk D u (.before sequence) :=
            h.lawful.data_mono hle (hargs sequence (by simp))
          have htaken : ∀ v ∈ ([] : List Value), D.Data u v := by simp
          have hwalk := takeFrom_safe h.lawful h.safe n.toInt.toNat hcursor htaken
          refine Mirrors.bind (h.takeFrom _ hcursor []) hwalk fun u' items _ _ => ?_
          rw [h.mirror.root, ← Value.ready_mapScopes]
          exact .pure (Value.ready scope.root items)
        · exact .fail (.notSequence (.operator .take) sequence.kind)
  | [] | [_] | _ :: _ :: _ :: _ => exact .arity (.operator .take) _

private theorem printLine (args : List Value) :
    Mirrors D M w M.value (Operator.printLine args) (Operator.printLine (M.values args)) := by
  unfold Operator.printLine
  rw [Mirror.values, ← Value.mapAllScopes_eq_map, Value.texts_mapAllScopes]
  have hprint : Safe D D.Raised w (Eval.print (Value.spaced (Value.texts args))) fun _ _ => True :=
    Safe.print h.lawful _
  exact Mirrors.bind (.print h.mirror _) hprint fun _ _ _ _ => .pure Value.nil

/-- Every operator. -/
theorem run {args : List Value} (hargs : ∀ v ∈ args, D.Data w v)
    (op : Operator) :
    Mirrors D M w M.value (op.run ev scope args) (op.run ev (M.image scope) (M.values args)) := by
  cases op with
  | add | subtract | multiply | divide => exact .ofExcept (arithmetic_rescopes args)
  | remainder => exact .ofExcept (remainderOf_rescopes args)
  | equal => exact .ofExcept (equality_rescopes args)
  | less | lessEqual | greater | greaterEqual => exact .ofExcept (comparison_rescopes args)
  | cons => exact .ofExcept (consOf_rescopes args)
  | first => exact .ofExcept (firstOf_rescopes args)
  | tail => exact h.tailOf hargs
  | isEmpty => exact .ofExcept (emptiness_rescopes args)
  | filter =>
      refine h.overList .filter (fun u call call' items hcall hsafe hitems => ?_)
        (fun u call items hcall hitems => ?_) hargs
      · exact filterOnto h.lawful hcall hsafe hitems []
      · exact filterOnto_safe h.lawful hcall (by simp) hitems
  | map =>
      refine h.overList .map (fun u call call' items hcall hsafe hitems => ?_)
        (fun u call items hcall hitems => ?_) hargs
      · exact mapOnto h.lawful hcall hsafe hitems []
      · exact mapOnto_safe h.lawful hcall (by simp) hitems
  | print => exact h.printLine args
  | range => exact .ofExcept (rangeOf_rescopes (h.mirror.root scope) args)
  | take => exact h.takeOf hargs

end All

end Discipline.Reflects

end LazyLisp
