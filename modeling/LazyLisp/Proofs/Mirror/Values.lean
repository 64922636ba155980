import LazyLisp.Proofs.FrameTrees

/-!
# Values with other scopes

Functions and lazy cells keep the scopes that they were built in, and these
are all that a value knows of the store.  Here every scope in a value is
replaced by another one.  Whatever looks at values alone takes no notice: an
operator on such values answers the same value with its scopes replaced, or
raises the same fault, and so do the reading of parameters and the filling in
of a template.

## Main results

* `Value.text_mapScopes` — the text of a value shows no scopes.
* `Value.mapScopes_mapScopes`, `Value.mapScopes_eq_self` — replacing scopes
  twice is replacing them once, and replacing each by itself changes nothing.
* `consOf_rescopes`, `equality_rescopes` and their like — the operators that
  are functions of values.
* `substitute_mapScopes` — filling in a template.
-/

namespace LazyLisp

namespace Value

/-! ## Replacing the scopes in a value -/

mutual

/-- The value with every scope that is kept in it replaced. -/
def mapScopes (g : Scope → Scope) : Value → Value
  | .number n => .number n
  | .boolean b => .boolean b
  | .string s => .string s
  | .vector items => .vector (mapAllScopes g items)
  | .pair cells => .pair (mapCellScopes g cells)
  | .terminal => .terminal
  | .nil => .nil
  | .symbol name => .symbol name
  | .closure serial params body scope => .closure serial params (body.mapScopes g) (g scope)
  | .template params body => .template params (body.mapScopes g)
  | .lastCell head => .lastCell (head.mapScopes g)
  | .lazyCell head rest scope => .lazyCell (head.mapScopes g) (rest.mapScopes g) (g scope)
  | .call callee args span => .call (callee.mapScopes g) (mapAllScopes g args) span

/-- The values with their scopes replaced. -/
def mapAllScopes (g : Scope → Scope) : List Value → List Value
  | [] => []
  | v :: rest => v.mapScopes g :: mapAllScopes g rest

/-- The cells with the scopes of their elements replaced. -/
def mapCellScopes (g : Scope → Scope) : Chain Value → Chain Value
  | .empty => .empty
  | .last v => .last (v.mapScopes g)
  | .cell v rest => .cell (v.mapScopes g) (mapCellScopes g rest)

end

variable {g : Scope → Scope}

theorem mapAllScopes_eq_map (g : Scope → Scope) (items : List Value) :
    mapAllScopes g items = items.map (mapScopes g) := by
  induction items with
  | nil => rfl
  | cons v rest ih => rw [mapAllScopes, ih, List.map_cons]

theorem toList_mapCellScopes (cells : Chain Value) :
    (mapCellScopes g cells).toList = cells.toList.map (mapScopes g) := by
  induction cells with
  | empty => rfl
  | last v => rfl
  | cell v rest ih =>
      rw [mapCellScopes, Chain.toList_cell, ih]
      rfl

theorem isEmpty_mapCellScopes (cells : Chain Value) :
    (mapCellScopes g cells).isEmpty = cells.isEmpty := by
  cases cells <;> rfl

theorem mapCellScopes_ofList (items : List Value) :
    mapCellScopes g (.ofList items) = .ofList (items.map (mapScopes g)) := by
  induction items with
  | nil => rfl
  | cons v rest ih =>
      cases rest with
      | nil => rfl
      | cons next more =>
          show Chain.cell _ (mapCellScopes g (.ofList (next :: more))) = _
          rw [ih]
          rfl

/-- The kind of a value does not depend on scopes. -/
@[simp] theorem kind_mapScopes (v : Value) : (v.mapScopes g).kind = v.kind := by
  cases v <;> rfl

@[simp] theorem isPending_mapScopes (v : Value) : (v.mapScopes g).isPending = v.isPending := by
  cases v <;> rfl

@[simp] theorem isSequence_mapScopes (v : Value) : (v.mapScopes g).isSequence = v.isSequence := by
  cases v <;> rfl

mutual

/-- The text of a value shows no scopes. -/
@[simp] theorem text_mapScopes : ∀ v : Value, (v.mapScopes g).text = v.text
  | .vector items => by rw [mapScopes, text, text, texts_mapAllScopes items]
  | .pair cells => by rw [mapScopes, text, text, cellTexts_mapCellScopes cells]
  | .lastCell head => by rw [mapScopes, text, text, text_mapScopes head]
  | .lazyCell head rest scope => by
      rw [mapScopes, text, text, text_mapScopes head, tailTexts_mapScopes rest]
  | .call callee args span => by
      rw [mapScopes, text, text, text_mapScopes callee, texts_mapAllScopes args]
  | .number _ | .boolean _ | .string _ | .terminal | .nil | .symbol _ | .closure _ _ _ _
  | .template _ _ => rfl

theorem tailTexts_mapScopes : ∀ v : Value, (v.mapScopes g).tailTexts = v.tailTexts
  | .lastCell head => by rw [mapScopes, tailTexts, tailTexts, text_mapScopes head]
  | .lazyCell head rest scope => by
      rw [mapScopes, tailTexts, tailTexts, text_mapScopes head, tailTexts_mapScopes rest]
  | .number _ | .boolean _ | .string _ | .vector _ | .pair _ | .terminal | .nil | .symbol _
  | .closure _ _ _ _ | .template _ _ | .call _ _ _ => rfl

theorem texts_mapAllScopes : ∀ items : List Value, texts (mapAllScopes g items) = texts items
  | [] => rfl
  | v :: rest => by
      rw [mapAllScopes, texts, texts, text_mapScopes v, texts_mapAllScopes rest]

theorem cellTexts_mapCellScopes :
    ∀ cells : Chain Value, cellTexts (mapCellScopes g cells) = cellTexts cells
  | .empty => rfl
  | .last v => by rw [mapCellScopes, cellTexts, cellTexts, text_mapScopes v]
  | .cell v rest => by
      rw [mapCellScopes, cellTexts, cellTexts, text_mapScopes v, cellTexts_mapCellScopes rest]

end

mutual

/-- Replacing scopes twice is replacing them once. -/
theorem mapScopes_mapScopes (f g : Scope → Scope) :
    ∀ v : Value, (v.mapScopes g).mapScopes f = v.mapScopes fun s => f (g s)
  | .vector items => by simp only [mapScopes, mapAllScopes_mapAllScopes f g items]
  | .pair cells => by simp only [mapScopes, mapCellScopes_mapCellScopes f g cells]
  | .closure serial params body scope => by simp only [mapScopes, mapScopes_mapScopes f g body]
  | .template params body => by simp only [mapScopes, mapScopes_mapScopes f g body]
  | .lastCell head => by simp only [mapScopes, mapScopes_mapScopes f g head]
  | .lazyCell head rest scope => by
      simp only [mapScopes, mapScopes_mapScopes f g head, mapScopes_mapScopes f g rest]
  | .call callee args span => by
      simp only [mapScopes, mapScopes_mapScopes f g callee, mapAllScopes_mapAllScopes f g args]
  | .number _ | .boolean _ | .string _ | .terminal | .nil | .symbol _ => rfl

theorem mapAllScopes_mapAllScopes (f g : Scope → Scope) :
    ∀ items : List Value, mapAllScopes f (mapAllScopes g items) =
      mapAllScopes (fun s => f (g s)) items
  | [] => rfl
  | v :: rest => by
      simp only [mapAllScopes, mapScopes_mapScopes f g v, mapAllScopes_mapAllScopes f g rest]

theorem mapCellScopes_mapCellScopes (f g : Scope → Scope) :
    ∀ cells : Chain Value, mapCellScopes f (mapCellScopes g cells) =
      mapCellScopes (fun s => f (g s)) cells
  | .empty => rfl
  | .last v => by simp only [mapCellScopes, mapScopes_mapScopes f g v]
  | .cell v rest => by
      simp only [mapCellScopes, mapScopes_mapScopes f g v, mapCellScopes_mapCellScopes f g rest]

end

mutual

/-- A value is the same if each of its scopes is. -/
theorem mapScopes_eq_self : ∀ v : Value, (∀ s, v.Keeps s → g s = s) → v.mapScopes g = v
  | .vector items, h => by
      rw [mapScopes, mapAllScopes_eq_self items fun v hv s hs => h s (.inside hv hs)]
  | .pair cells, h => by
      rw [mapScopes, mapCellScopes_eq_self cells fun v hv s hs => h s (.inside hv hs)]
  | .closure serial params body scope, h => by
      rw [mapScopes, mapScopes_eq_self body fun s hs => h s (.inside (by simp [parts]) hs),
        h scope (.here rfl)]
  | .template params body, h => by
      rw [mapScopes, mapScopes_eq_self body fun s hs => h s (.inside (by simp [parts]) hs)]
  | .lastCell head, h => by
      rw [mapScopes, mapScopes_eq_self head fun s hs => h s (.inside (by simp [parts]) hs)]
  | .lazyCell head rest scope, h => by
      rw [mapScopes, mapScopes_eq_self head fun s hs => h s (.inside (by simp [parts]) hs),
        mapScopes_eq_self rest fun s hs => h s (.inside (by simp [parts]) hs), h scope (.here rfl)]
  | .call callee args span, h => by
      rw [mapScopes, mapScopes_eq_self callee fun s hs => h s (.inside (by simp [parts]) hs),
        mapAllScopes_eq_self args fun v hv s hs => h s (.inside (by simp [parts, hv]) hs)]
  | .number _, _ | .boolean _, _ | .string _, _ | .terminal, _ | .nil, _ | .symbol _, _ => rfl

theorem mapAllScopes_eq_self : ∀ items : List Value,
    (∀ v ∈ items, ∀ s, v.Keeps s → g s = s) → mapAllScopes g items = items
  | [], _ => rfl
  | v :: rest, h => by
      obtain ⟨hv, hrest⟩ := List.forall_mem_cons.mp h
      rw [mapAllScopes, mapScopes_eq_self v hv, mapAllScopes_eq_self rest hrest]

theorem mapCellScopes_eq_self : ∀ cells : Chain Value,
    (∀ v ∈ cells.toList, ∀ s, v.Keeps s → g s = s) → mapCellScopes g cells = cells
  | .empty, _ => rfl
  | .last v, h => by
      rw [mapCellScopes, mapScopes_eq_self v (h v (by simp))]
  | .cell v rest, h => by
      obtain ⟨hv, hrest⟩ := List.forall_mem_cons.mp h
      rw [mapCellScopes, mapScopes_eq_self v hv, mapCellScopes_eq_self rest hrest]

end

theorem ready_mapScopes (scope : Scope) (items : List Value) :
    (ready scope items).mapScopes g = ready (g scope) (items.map (mapScopes g)) := by
  induction items with
  | nil => rfl
  | cons v rest ih =>
      cases rest with
      | nil => rfl
      | cons next more =>
          show Value.lazyCell _ ((ready scope (next :: more)).mapScopes g) _ = _
          rw [ih]
          rfl

end Value

/-- The fault with the scopes of the value in it replaced. -/
def Fault.mapScopes (g : Scope → Scope) : Fault → Fault
  | .notCallable v => .notCallable (v.mapScopes g)
  | fault => fault

/-- The failure with the scopes of all values in it replaced. -/
def Failure.mapScopes (g : Scope → Scope) (f : Failure) : Failure :=
  ⟨f.fault.mapScopes g, f.call.map fun c => { c with args := c.args.map (Value.mapScopes g) }⟩

/-- The bindings with the scopes of all values replaced. -/
def Bindings.mapScopes (g : Scope → Scope) (b : Bindings) : Bindings :=
  b.map fun entry => (entry.1, entry.2.mapScopes g)

/-- Two changes of the scopes in a fault are one. -/
theorem Fault.mapScopes_mapScopes (f g : Scope → Scope) (fault : Fault) :
    (fault.mapScopes g).mapScopes f = fault.mapScopes fun s => f (g s) := by
  cases fault with
  | notCallable v => exact congrArg Fault.notCallable (Value.mapScopes_mapScopes f g v)
  | _ => rfl

/-- The message of a fault shows no scopes. -/
@[simp] theorem Fault.message_mapScopes (g : Scope → Scope) (fault : Fault) :
    (fault.mapScopes g).message = fault.message := by
  cases fault with
  | notCallable v =>
      show _ ++ ((v.mapScopes g).text ++ " is a " ++ (v.mapScopes g).kind.name) = _
      rw [Value.text_mapScopes, Value.kind_mapScopes]
      rfl
  | _ => rfl

/-- Recording a call and changing scopes may be done in either order. -/
theorem Failure.inCall_mapScopes (g : Scope → Scope) (callee : Value) (args : List Value)
    (span : Span) (f : Failure) :
    (f.inCall callee args span).mapScopes g =
      (f.mapScopes g).inCall (callee.mapScopes g) (args.map (Value.mapScopes g)) span := by
  unfold inCall
  cases hcall : f.call with
  | some c => simp [mapScopes, hcall]
  | none => simp [mapScopes, hcall]

namespace Bindings

variable {g : Scope → Scope}

theorem mapScopes_mapScopes (f g : Scope → Scope) (b : Bindings) :
    (b.mapScopes g).mapScopes f = b.mapScopes fun s => f (g s) := by
  simp only [mapScopes, List.map_map, Function.comp_def, Value.mapScopes_mapScopes]

theorem mapScopes_eq_self {b : Bindings} (h : ∀ name v, (name, v) ∈ b → v.mapScopes g = v) :
    b.mapScopes g = b := by
  have hentries : ∀ entry ∈ b, (entry.1, entry.2.mapScopes g) = entry :=
    fun entry hentry => Prod.ext rfl (h entry.1 entry.2 hentry)
  rw [mapScopes, List.map_congr_left hentries, List.map_id']

/-- The same names are bound, to the changed values. -/
theorem find?_mapScopes (name : String) (b : Bindings) :
    (b.mapScopes g).find? name = (b.find? name).map (Value.mapScopes g) := by
  induction b with
  | nil => rfl
  | cons entry rest ih =>
      obtain ⟨other, v⟩ := entry
      show find? name ((other, v.mapScopes g) :: mapScopes g rest) = _
      by_cases hname : other = name
      · simp only [find?, if_pos hname, Option.map_some]
      · simp only [find?, if_neg hname, ih]

theorem put_mapScopes (name : String) (v : Value) (b : Bindings) :
    (b.put name v).mapScopes g = (b.mapScopes g).put name (v.mapScopes g) := by
  induction b with
  | nil => rfl
  | cons entry rest ih =>
      obtain ⟨other, u⟩ := entry
      show mapScopes g (put name v ((other, u) :: rest)) =
        put name (v.mapScopes g) ((other, u.mapScopes g) :: mapScopes g rest)
      by_cases hname : other = name
      · simp only [put, if_pos hname, mapScopes, List.map_cons]
      · simp only [put, if_neg hname, mapScopes, List.map_cons] at ih ⊢
        rw [ih]

theorem ofParams_mapScopes (params : List String) (args : List Value) :
    (ofParams params args).mapScopes g = ofParams params (args.map (Value.mapScopes g)) := by
  have hfold (entries : List (String × Value)) (b : Bindings) :
      mapScopes g (entries.foldl (fun b entry => put entry.1 entry.2 b) b) =
        (mapScopes g entries).foldl (fun b entry => put entry.1 entry.2 b) (mapScopes g b) := by
    induction entries generalizing b with
    | nil => rfl
    | cons entry rest ih =>
        rw [List.foldl_cons, ih, put_mapScopes]
        rfl
  have hzip : mapScopes g (params.zip args) = params.zip (args.map (Value.mapScopes g)) := by
    rw [List.zip_map_right]
    rfl
  show mapScopes g ((params.zip args).foldl (fun b entry => put entry.1 entry.2 b) []) = _
  rw [hfold, hzip]
  rfl

end Bindings

/-! ## Functions of values -/

/-- Both results are there and the second one is the image of the first, or
both are the same fault up to scopes. -/
inductive Rescopes (g : Scope → Scope) {α : Type} (f : α → α) :
    Except Fault α → Except Fault α → Prop where
  | ok (a : α) : Rescopes g f (.ok a) (.ok (f a))
  | error (fault : Fault) : Rescopes g f (.error fault) (.error (fault.mapScopes g))

section Pure

variable {g : Scope → Scope} {op : Operator} {position : Nat} {v a b : Value}

/-- Two operations on values, one after the other. -/
theorem Rescopes.bind {α β : Type} {f : α → α} {h : β → β} {x y : Except Fault α}
    {k k' : α → Except Fault β} (hxy : Rescopes g f x y)
    (hk : ∀ a, Rescopes g h (k a) (k' (f a))) : Rescopes g h (x >>= k) (y >>= k') := by
  cases hxy with
  | ok a => exact hk a
  | error fault => exact .error fault

theorem expectNumber_rescopes : Rescopes g id (Operator.expectNumber op position v)
    (Operator.expectNumber op position (v.mapScopes g)) := by
  cases v <;> first | exact .ok _ | exact .error _

theorem expectInteger_rescopes : Rescopes g id (Operator.expectInteger op position v)
    (Operator.expectInteger op position (v.mapScopes g)) := by
  cases v with
  | number n => cases n <;> first | exact .ok _ | exact .error _
  | _ => exact .error _

theorem arithmeticResult_rescopes (x : Except Number.Fault Number) :
    Rescopes g id (Operator.arithmeticResult x) (Operator.arithmeticResult x) := by
  cases x <;> first | exact .ok _ | exact .error _

private theorem foldNumbers_rescopes {f : Number → Number → Except Number.Fault Number}
    {acc : Number}
    (items : List Value) : Rescopes g id (Operator.foldNumbers op f acc position items)
      (Operator.foldNumbers op f acc position (items.map (Value.mapScopes g))) := by
  induction items generalizing acc position with
  | nil => exact .ok acc
  | cons v rest ih =>
      refine expectNumber_rescopes.bind fun n => ?_
      exact (arithmeticResult_rescopes _).bind fun next => ih

theorem arithmetic_rescopes {f : Number → Number → Except Number.Fault Number}
    (args : List Value) : Rescopes g (Value.mapScopes g) (Operator.arithmetic op f args)
      (Operator.arithmetic op f (args.map (Value.mapScopes g))) := by
  cases args with
  | nil => exact .error _
  | cons v rest =>
      refine expectNumber_rescopes.bind fun first => ?_
      exact (foldNumbers_rescopes rest).bind fun result => .ok (Value.number result)

theorem arityFault_rescopes {f : Value → Value} (args : List Value) :
    Rescopes g f (.error (op.arityFault args))
      (.error (op.arityFault (args.map (Value.mapScopes g)))) := by
  rw [Operator.arityFault, Operator.arityFault, List.length_map]
  exact .error _

theorem remainderOf_rescopes (args : List Value) : Rescopes g (Value.mapScopes g)
    (Operator.remainderOf args) (Operator.remainderOf (args.map (Value.mapScopes g))) := by
  match args with
  | [a, b] =>
      refine expectNumber_rescopes.bind fun m => expectNumber_rescopes.bind fun n => ?_
      exact (arithmeticResult_rescopes _).bind fun result => .ok (Value.number result)
  | [] | [_] | _ :: _ :: _ :: _ => exact arityFault_rescopes _

mutual

private theorem equals_rescopes : ∀ a b : Value,
    Rescopes g id (a.equals b) ((a.mapScopes g).equals (b.mapScopes g))
  | .vector as, b => by
      cases b with
      | vector bs =>
          simp only [Value.mapScopes, Value.mapAllScopes_eq_map, Value.equals, List.length_map]
          split
          · exact allEqual_rescopes as bs
          · exact .ok _
      | _ => exact .error _
  | .pair as, b => by
      cases b with
      | pair bs =>
          simp only [Value.mapScopes, Value.equals, Value.toList_mapCellScopes, List.length_map]
          split
          · exact cellsEqual_rescopes as bs.toList
          · exact .ok _
      | terminal =>
          simp only [Value.mapScopes, Value.equals, Value.isEmpty_mapCellScopes]
          exact .ok _
      | _ => exact .error _
  | .terminal, b => by
      cases b with
      | terminal => exact .ok _
      | pair bs =>
          simp only [Value.mapScopes, Value.equals, Value.isEmpty_mapCellScopes]
          exact .ok _
      | _ => exact .error _
  | .number _, b | .boolean _, b | .string _, b => by
      cases b <;> first | exact .ok _ | exact .error _
  | .nil, b | .symbol _, b | .closure _ _ _ _, b | .template _ _, b | .lastCell _, b
  | .lazyCell _ _ _, b | .call _ _ _, b => by cases b <;> exact .error _

theorem allEqual_rescopes : ∀ as bs : List Value, Rescopes g id (Value.allEqual as bs)
    (Value.allEqual (as.map (Value.mapScopes g)) (bs.map (Value.mapScopes g)))
  | a :: as, b :: bs => by
      have hhead := equals_rescopes a b
      rw [List.map_cons, List.map_cons, Value.allEqual, Value.allEqual]
      generalize a.equals b = x, (a.mapScopes g).equals (b.mapScopes g) = y at hhead ⊢
      cases hhead with
      | ok answer =>
          cases answer with
          | true => exact allEqual_rescopes as bs
          | false => exact .ok _
      | error fault => exact .error fault
  | [], _ | _ :: _, [] => .ok _

theorem cellsEqual_rescopes : ∀ (as : Chain Value) (bs : List Value),
    Rescopes g id (Value.cellsEqual as bs)
      (Value.cellsEqual (Value.mapCellScopes g as) (bs.map (Value.mapScopes g)))
  | .last a, b :: bs => equals_rescopes a b
  | .cell a as, b :: bs => by
      have hhead := equals_rescopes a b
      rw [List.map_cons, Value.mapCellScopes, Value.cellsEqual, Value.cellsEqual]
      generalize a.equals b = x, (a.mapScopes g).equals (b.mapScopes g) = y at hhead ⊢
      cases hhead with
      | ok answer =>
          cases answer with
          | true => exact cellsEqual_rescopes as bs
          | false => exact .ok _
      | error fault => exact .error fault
  | .empty, _ | .last _, [] | .cell _ _, [] => .ok _

end

theorem equality_rescopes (args : List Value) : Rescopes g (Value.mapScopes g)
    (Operator.equality args) (Operator.equality (args.map (Value.mapScopes g))) := by
  match args with
  | [a, b] => exact (equals_rescopes a b).bind fun answer => .ok (Value.boolean answer)
  | [] | [_] | _ :: _ :: _ :: _ => exact arityFault_rescopes _

private theorem compareTo_rescopes :
    Rescopes g id (a.compareTo b) ((a.mapScopes g).compareTo (b.mapScopes g)) := by
  cases a with
  | number m =>
      cases b with
      | number n =>
          simp only [Value.mapScopes, Value.compareTo]
          cases m.compare n <;> first | exact .ok _ | exact .error _
      | _ => exact .error _
  | string s =>
      cases b <;> first | exact .ok _ | exact .error _
  | _ => cases b <;> exact .error _

theorem comparison_rescopes {test : Ordering → Bool} (args : List Value) :
    Rescopes g (Value.mapScopes g) (Operator.comparison op test args)
      (Operator.comparison op test (args.map (Value.mapScopes g))) := by
  match args with
  | [a, b] => exact compareTo_rescopes.bind fun order => .ok (Value.boolean (test order))
  | [] | [_] | _ :: _ :: _ :: _ => exact arityFault_rescopes _

theorem consOf_rescopes (args : List Value) : Rescopes g (Value.mapScopes g)
    (Operator.consOf args) (Operator.consOf (args.map (Value.mapScopes g))) := by
  match args with
  | [] => exact .ok (Value.pair .empty)
  | [head] => exact .ok (Value.pair (.last head))
  | [head, rest] =>
      cases rest with
      | terminal => exact .ok (Value.pair (.last head))
      | pair cells =>
          cases cells with
          | empty => exact .ok (Value.pair (.last head))
          | last v => exact .ok (Value.pair (.cell head (.last v)))
          | cell v more => exact .ok (Value.pair (.cell head (.cell v more)))
      | _ => exact .error _
  | a :: b :: c :: rest =>
      have hmany (u v w : Value) (more : List Value) : Operator.consOf (u :: v :: w :: more) =
          .error (Operator.cons.arityFault (u :: v :: w :: more)) := by
        simp only [Operator.consOf]
      rw [List.map_cons, List.map_cons, List.map_cons, hmany, hmany]
      exact arityFault_rescopes (a :: b :: c :: rest)

theorem firstOf_rescopes (args : List Value) : Rescopes g (Value.mapScopes g)
    (Operator.firstOf args) (Operator.firstOf (args.map (Value.mapScopes g))) := by
  match args with
  | [v] =>
      cases v with
      | lastCell head => exact .ok head
      | lazyCell head rest scope => exact .ok head
      | pair cells =>
          cases cells with
          | empty => exact .error _
          | last head => exact .ok head
          | cell head more => exact .ok head
      | _ => exact .error _
  | [] => exact arityFault_rescopes []
  | a :: b :: rest =>
      have hmany (u v : Value) (more : List Value) : Operator.firstOf (u :: v :: more) =
          .error (Operator.first.arityFault (u :: v :: more)) := by
        simp only [Operator.firstOf]
      rw [List.map_cons, List.map_cons, hmany, hmany]
      exact arityFault_rescopes (a :: b :: rest)

theorem emptiness_rescopes (args : List Value) : Rescopes g (Value.mapScopes g)
    (Operator.emptiness args) (Operator.emptiness (args.map (Value.mapScopes g))) := by
  match args with
  | [v] =>
      cases v with
      | terminal => exact .ok (Value.boolean true)
      | pair cells =>
          show Rescopes g _ _ (.ok (Value.boolean (Value.mapCellScopes g cells).isEmpty))
          rw [Value.isEmpty_mapCellScopes]
          exact .ok (Value.boolean cells.isEmpty)
      | lastCell head => exact .ok (Value.boolean false)
      | lazyCell head rest scope => exact .ok (Value.boolean false)
      | _ => exact .error _
  | [] => exact arityFault_rescopes []
  | a :: b :: rest =>
      have hmany (u v : Value) (more : List Value) : Operator.emptiness (u :: v :: more) =
          .error (Operator.isEmpty.arityFault (u :: v :: more)) := by
        simp only [Operator.emptiness]
      rw [List.map_cons, List.map_cons, hmany, hmany]
      exact arityFault_rescopes (a :: b :: rest)

/-- A range keeps the global scope only. -/
theorem rangeFrom_mapScopes (low high : Int64) {scope : Scope}
    (hroot : (g scope).root = g scope.root) :
    (Operator.rangeFrom low high scope).mapScopes g = Operator.rangeFrom low high (g scope) := by
  unfold Operator.rangeFrom
  split
  · rw [hroot]
    rfl
  · rfl

theorem rangeOf_rescopes {scope : Scope} (hroot : (g scope).root = g scope.root)
    (args : List Value) : Rescopes g (Value.mapScopes g) (Operator.rangeOf scope args)
      (Operator.rangeOf (g scope) (args.map (Value.mapScopes g))) := by
  match args with
  | [low, high] =>
      refine expectInteger_rescopes.bind fun m => expectInteger_rescopes.bind fun n => ?_
      show Rescopes g _ (.ok (Operator.rangeFrom m n scope))
        (.ok (Operator.rangeFrom m n (g scope)))
      rw [← rangeFrom_mapScopes m n hroot]
      exact .ok _
  | [] | [_] | _ :: _ :: _ :: _ => exact arityFault_rescopes _

/-! ## Parameters and templates -/

private theorem names_rescopes (items : List Value) : Rescopes g id (readParams.names items)
    (readParams.names (items.map (Value.mapScopes g))) := by
  induction items with
  | nil => exact .ok _
  | cons item rest ih =>
      cases item with
      | symbol name =>
          show Rescopes g id ((readParams.names rest).map (name :: ·))
            ((readParams.names (rest.map (Value.mapScopes g))).map (name :: ·))
          generalize readParams.names rest = x,
            readParams.names (rest.map (Value.mapScopes g)) = y at ih ⊢
          cases ih with
          | ok names => exact .ok (name :: names)
          | error fault => exact .error fault
      | _ => exact .error _

/-- Names of parameters do not depend on scopes. -/
theorem readParams_rescopes (v : Value) :
    Rescopes g id (readParams v) (readParams (v.mapScopes g)) := by
  cases v with
  | vector items =>
      show Rescopes g id (readParams.names items) (readParams.names (Value.mapAllScopes g items))
      rw [Value.mapAllScopes_eq_map]
      exact names_rescopes items
  | _ => exact .error _

mutual

/-- A template is filled in with the same scopes as its forms. -/
theorem substitute_mapScopes (forms : Bindings) (span : Span) : ∀ v : Value,
    (Template.substitute forms span v).mapScopes g =
      Template.substitute (forms.mapScopes g) span (v.mapScopes g)
  | .symbol name => by
      rw [Value.mapScopes, Template.substitute, Template.substitute, Bindings.find?_mapScopes]
      cases forms.find? name <;> rfl
  | .call callee args _ => by
      simp only [Value.mapScopes, Template.substitute, substitute_mapScopes forms span callee,
        substituteAll_mapScopes forms span args]
  | .vector items => by
      simp only [Value.mapScopes, Template.substitute, substituteAll_mapScopes forms span items]
  | .number _ | .boolean _ | .string _ | .pair _ | .terminal | .nil | .closure _ _ _ _
  | .template _ _ | .lastCell _ | .lazyCell _ _ _ => rfl

theorem substituteAll_mapScopes (forms : Bindings) (span : Span) : ∀ items : List Value,
    Value.mapAllScopes g (Template.substituteAll forms span items) =
      Template.substituteAll (forms.mapScopes g) span (Value.mapAllScopes g items)
  | [] => rfl
  | v :: rest => by
      simp only [Value.mapAllScopes, Template.substituteAll, substitute_mapScopes forms span v,
        substituteAll_mapScopes forms span rest]

end

/-- A template is filled in with forms whose scopes were changed. -/
theorem expand_rescopes (params : List String) (body : Value) (args : List Value) (span : Span) :
    Rescopes g (Value.mapScopes g) (Template.expand params body args span)
      (Template.expand params (body.mapScopes g) (args.map (Value.mapScopes g)) span) := by
  unfold Template.expand
  rw [List.length_map, ← Bindings.ofParams_mapScopes, ← substitute_mapScopes]
  split
  · exact .ok _
  · exact .error _

/-- Which primitive a value names does not depend on scopes. -/
theorem primitive?_mapScopes (v : Value) :
    Evaluation.primitive? (v.mapScopes g) = Evaluation.primitive? v := by
  cases v <;> rfl

end Pure

end LazyLisp
