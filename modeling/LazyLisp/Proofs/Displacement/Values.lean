import LazyLisp.Proofs.Equality
import LazyLisp.Proofs.FrameTrees

/-!
# Displaced values

A function that is called once more opens other frames and builds functions
with other numbers.  What it answers then is not the same value, but the same
up to these numbers.  Here one value is a displaced copy of another one if the
two are built alike, from the same names, numbers and texts, and every scope
kept in the first one is kept in the second one with all frames from a certain
number on moved by an offset.  The numbers of functions are not compared at
all, since no evaluation looks at them.

What is a function of values takes displaced values to displaced values, and
fails on both or on none.

## Main results

* `Value.Displaced` — displaced copies of values.
* `Value.Displaced.refl` — a value that keeps earlier frames only is its own
  displaced copy.
* `Value.Displaced.substitute` — filling in a template.
* `Value.Displaced.eq_of_keepsNothing` — a value that keeps no scope has no
  displaced copy but itself.
* `equals_congr` — equality answers alike.
* `arithmetic_agree`, `consOf_agree` and their like — the operators that are
  functions of values.
-/

namespace LazyLisp

/-- Frames from a number on are moved by an offset. -/
structure Displacement where
  start : Nat
  offset : Nat

namespace Displacement

/-- Where a frame is moved. -/
def frame (d : Displacement) (f : FrameId) : FrameId :=
  if f < d.start then f else f + d.offset

/-- The scope with its frames moved. -/
def scope (d : Displacement) : Scope → Scope
  | .global f => .global (d.frame f)
  | .inner f outer => .inner (d.frame f) (d.scope outer)

variable {d : Displacement}

/-- Older frames keep their numbers. -/
theorem frame_of_lt {f : FrameId} (h : f < d.start) : d.frame f = f := if_pos h

/-- Later frames are moved by the offset. -/
theorem frame_of_le {f : FrameId} (h : d.start ≤ f) : d.frame f = f + d.offset :=
  if_neg (Nat.not_lt_of_le h)

/-- No two frames are moved to the same place. -/
theorem frame_inj {f g : FrameId} : d.frame f = d.frame g ↔ f = g := by
  grind [frame]

/-- Moving a scope moves its global frame. -/
theorem rootFrame_scope (s : Scope) : (d.scope s).rootFrame = d.frame s.rootFrame := by
  induction s with
  | global f => rfl
  | inner f outer ih => exact ih

theorem root_scope (s : Scope) : (d.scope s).root = d.scope s.root :=
  congrArg Scope.global (rootFrame_scope s)

/-- A scope of earlier frames stays where it is. -/
theorem scope_eq_self {s : Scope} (h : ∀ f ∈ s.frames, f < d.start) : d.scope s = s := by
  induction s with
  | global f => rw [scope, frame_of_lt (h f (List.mem_singleton_self f))]
  | inner f outer ih =>
      obtain ⟨hf, houter⟩ := List.forall_mem_cons.mp h
      rw [scope, frame_of_lt hf, ih houter]

end Displacement

/-! ## Chains of related elements -/

/-- Two chains with the same cells and related elements. -/
inductive Chain.Related {α : Type} (R : α → α → Prop) : Chain α → Chain α → Prop where
  | empty : Related R .empty .empty
  | last {a b : α} (h : R a b) : Related R (.last a) (.last b)
  | cell {a b : α} {as bs : Chain α} (h : R a b) (more : Related R as bs) :
      Related R (.cell a as) (.cell b bs)

namespace Chain.Related

variable {α : Type} {R : α → α → Prop} {as bs : Chain α}

/-- Related chains have related elements, in the same order. -/
theorem toList (h : Related R as bs) : List.Forall₂ R as.toList bs.toList := by
  induction h with
  | empty => exact .nil
  | last h => exact .cons h .nil
  | cell h _ ih => exact .cons h ih

theorem ofList {as bs : List α} (h : List.Forall₂ R as bs) :
    Related R (.ofList as) (.ofList bs) := by
  induction h with
  | nil => exact .empty
  | cons h more ih =>
      cases more with
      | nil => exact .last h
      | cons next rest => exact .cell h ih

theorem isEmpty_eq (h : Related R as bs) : as.isEmpty = bs.isEmpty := by
  cases h <;> rfl

theorem refl (h : ∀ a ∈ as.toList, R a a) : Related R as as := by
  induction as with
  | empty => exact .empty
  | last a => exact .last (h a (List.mem_singleton_self a))
  | cell a as ih =>
      obtain ⟨ha, has⟩ := List.forall_mem_cons.mp h
      exact .cell ha (ih has)

private theorem eq_of_mem (h : Related R as bs) (heq : ∀ a ∈ as.toList, ∀ b, R a b → a = b) :
    as = bs := by
  induction h with
  | empty => rfl
  | last hab => rw [heq _ (List.mem_singleton_self _) _ hab]
  | cell hab _ ih =>
      obtain ⟨ha, has⟩ := List.forall_mem_cons.mp heq
      rw [ha _ hab, ih has]

end Chain.Related

theorem forall₂_map_of_mem {α β γ δ : Type} {R : α → β → Prop} {S : γ → δ → Prop}
    {f : α → γ} {g : β → δ} {as : List α} {bs : List β} (h : List.Forall₂ R as bs)
    (hmap : ∀ a ∈ as, ∀ b, R a b → S (f a) (g b)) : List.Forall₂ S (as.map f) (bs.map g) := by
  induction h with
  | nil => exact .nil
  | cons hab _ ih =>
      obtain ⟨ha, has⟩ := List.forall_mem_cons.mp hmap
      exact .cons (ha _ hab) (ih has)

theorem forall₂_eq_of_mem {α : Type} {R : α → α → Prop} {as bs : List α}
    (h : List.Forall₂ R as bs) (heq : ∀ a ∈ as, ∀ b, R a b → a = b) : as = bs := by
  have hmap : List.Forall₂ Eq (as.map id) (bs.map id) := forall₂_map_of_mem h heq
  rwa [List.map_id, List.map_id, List.forall₂_eq_eq_eq] at hmap

/-! ## Displaced values -/

namespace Value

/-- The second value is the first one with its scopes displaced and with any
numbers for its functions. -/
inductive Displaced (d : Displacement) : Value → Value → Prop where
  | number (n : Number) : Displaced d (.number n) (.number n)
  | boolean (b : Bool) : Displaced d (.boolean b) (.boolean b)
  | string (s : String) : Displaced d (.string s) (.string s)
  | vector {as bs : List Value} (h : List.Forall₂ (Displaced d) as bs) :
      Displaced d (.vector as) (.vector bs)
  | pair {as bs : Chain Value} (h : Chain.Related (Displaced d) as bs) :
      Displaced d (.pair as) (.pair bs)
  | terminal : Displaced d .terminal .terminal
  | nil : Displaced d .nil .nil
  | symbol (name : String) : Displaced d (.symbol name) (.symbol name)
  | closure {serial serial' : Nat} {params : List String} {body body' : Value} {scope : Scope}
      (hbody : Displaced d body body') :
      Displaced d (.closure serial params body scope)
        (.closure serial' params body' (d.scope scope))
  | template {params : List String} {body body' : Value} (hbody : Displaced d body body') :
      Displaced d (.template params body) (.template params body')
  | lastCell {head head' : Value} (hhead : Displaced d head head') :
      Displaced d (.lastCell head) (.lastCell head')
  | lazyCell {head head' rest rest' : Value} {scope : Scope} (hhead : Displaced d head head')
      (hrest : Displaced d rest rest') :
      Displaced d (.lazyCell head rest scope) (.lazyCell head' rest' (d.scope scope))
  | call {callee callee' : Value} {args args' : List Value} {span : Span}
      (hcallee : Displaced d callee callee') (hargs : List.Forall₂ (Displaced d) args args') :
      Displaced d (.call callee args span) (.call callee' args' span)

variable {d : Displacement} {v v' a a' b b' : Value}

namespace Displaced

/-- A form is displaced to a form, and a value to a value. -/
theorem isPending_eq (h : Displaced d v v') : v.isPending = v'.isPending := by
  cases h <;> rfl

/-- A sequence is displaced to a sequence. -/
theorem isSequence_eq (h : Displaced d v v') : v.isSequence = v'.isSequence := by
  cases h <;> rfl

/-- A value is a displaced copy of itself if all its scopes stay in place. -/
theorem refl (h : v.KeepsOnly fun s => d.scope s = s) : Displaced d v v := by
  induction v using induction_on_parts with
  | step v ih =>
      have parts : ∀ u ∈ v.parts, Displaced d u u := fun u hu => ih u hu (h.inside hu)
      cases v with
      | vector items => exact .vector (List.forall₂_same.mpr parts)
      | pair cells => exact .pair (.refl parts)
      | closure serial params body scope =>
          have hself : Displaced d (.closure serial params body scope)
              (.closure serial params body (d.scope scope)) :=
            .closure (parts body (List.mem_singleton_self body))
          rwa [h.here scope rfl] at hself
      | template params body => exact .template (parts body (List.mem_singleton_self body))
      | lastCell head => exact .lastCell (parts head (List.mem_singleton_self head))
      | lazyCell head rest scope =>
          have hself :
              Displaced d (.lazyCell head rest scope) (.lazyCell head rest (d.scope scope)) :=
            .lazyCell (parts head (List.mem_cons_self ..))
              (parts rest (List.mem_cons_of_mem _ (List.mem_singleton_self rest)))
          rwa [h.here scope rfl] at hself
      | call callee args span =>
          obtain ⟨hcallee, hargs⟩ := List.forall_mem_cons.mp parts
          exact .call hcallee (List.forall₂_same.mpr hargs)
      | number n => exact .number n
      | boolean p => exact .boolean p
      | string s => exact .string s
      | symbol name => exact .symbol name
      | terminal => exact .terminal
      | nil => exact .nil

/-- A displaced copy of a value that keeps no scope is the value. -/
theorem eq_of_keepsNothing (h : Displaced d v v') (hv : v.KeepsOnly fun _ => False) : v = v' := by
  induction v using induction_on_parts generalizing v' with
  | step v ih =>
      have hpart (u : Value) (hu : u ∈ v.parts) (u' : Value) (h : Displaced d u u') : u = u' :=
        ih u hu h (hv.inside hu)
      cases h with
      | vector hitems => exact congrArg Value.vector (forall₂_eq_of_mem hitems hpart)
      | pair hcells => exact congrArg Value.pair (hcells.eq_of_mem hpart)
      | closure _ => exact (hv.here _ rfl).elim
      | lazyCell _ _ => exact (hv.here _ rfl).elim
      | template hbody => rw [hpart _ (List.mem_singleton_self _) _ hbody]
      | lastCell hhead => rw [hpart _ (List.mem_singleton_self _) _ hhead]
      | call hcallee hargs =>
          obtain ⟨hpcallee, hpargs⟩ := List.forall_mem_cons.mp hpart
          rw [hpcallee _ hcallee, forall₂_eq_of_mem hargs hpargs]
      | _ => rfl

theorem ready {items items' : List Value} (h : List.Forall₂ (Displaced d) items items')
    (scope : Scope) : Displaced d (ready scope items) (Value.ready (d.scope scope) items') := by
  induction h with
  | nil => exact .terminal
  | cons hv more ih =>
      cases more with
      | nil => exact .lastCell hv
      | cons next rest => exact .lazyCell hv ih

end Displaced

end Value

/-! ## Bindings and templates -/

namespace Bindings

variable {d : Displacement} {b b' : Bindings} {v v' : Value}

/-- The same names in the same order, bound to displaced values. -/
def Displaced (d : Displacement) (b b' : Bindings) : Prop :=
  List.Forall₂ (fun e e' => e.1 = e'.1 ∧ e.2.Displaced d e'.2) b b'

namespace Displaced

/-- Displaced bindings bind the same names to displaced values. -/
theorem find? (h : Displaced d b b') (name : String) :
    Option.Rel (Value.Displaced d) (b.find? name) (b'.find? name) := by
  induction h with
  | nil => exact .none
  | @cons e e' _ _ he _ ih =>
      obtain ⟨other, v⟩ := e
      obtain ⟨other', v'⟩ := e'
      obtain ⟨rfl, hv⟩ := he
      by_cases hname : other = name
      · simp only [Bindings.find?, if_pos hname]
        exact .some hv
      · simp only [Bindings.find?, if_neg hname]
        exact ih

/-- Putting displaced values under one name keeps bindings displaced. -/
theorem put (h : Displaced d b b') (name : String) (hv : v.Displaced d v') :
    Displaced d (b.put name v) (b'.put name v') := by
  induction h with
  | nil => exact .cons ⟨rfl, hv⟩ .nil
  | @cons e e' _ _ he hrest ih =>
      obtain ⟨other, u⟩ := e
      obtain ⟨other', u'⟩ := e'
      obtain ⟨rfl, hu⟩ := he
      by_cases hname : other = name
      · simp only [Bindings.put, if_pos hname]
        exact .cons ⟨rfl, hv⟩ hrest
      · simp only [Bindings.put, if_neg hname]
        exact .cons ⟨rfl, hu⟩ ih

/-- Parameters are bound to displaced arguments. -/
theorem ofParams {args args' : List Value} (h : List.Forall₂ (Value.Displaced d) args args')
    (params : List String) : Displaced d (.ofParams params args) (.ofParams params args') := by
  have entries (b b' : Bindings) (hb : Displaced d b b') :
      Displaced d ((params.zip args).foldl (fun b entry => Bindings.put entry.1 entry.2 b) b)
        ((params.zip args').foldl (fun b entry => Bindings.put entry.1 entry.2 b) b') := by
    induction h generalizing params b b' with
    | nil => simpa using hb
    | cons hv _ ih =>
        cases params with
        | nil => exact hb
        | cons name params => exact ih params _ _ (hb.put name hv)
  exact entries [] [] .nil

end Displaced

end Bindings

namespace Value.Displaced

variable {d : Displacement} {v v' : Value}

/-- Forms that are displaced copies, filled in for the same parameters. -/
theorem substitute {forms forms' : Bindings} (hforms : Bindings.Displaced d forms forms')
    (span : Span) (h : Displaced d v v') :
    Displaced d (Template.substitute forms span v) (Template.substitute forms' span v') := by
  induction v using induction_on_parts generalizing v' with
  | step v ih =>
      cases h with
      | symbol name =>
          rw [Template.substitute, Template.substitute]
          have hfind := hforms.find? name
          generalize forms.find? name = o, forms'.find? name = o' at hfind
          cases hfind with
          | some hu => exact hu
          | none => exact .symbol name
      | vector hitems =>
          rw [Template.substitute, Template.substitute, Template.substituteAll_eq_map,
            Template.substituteAll_eq_map]
          exact .vector (forall₂_map_of_mem hitems fun u hu _ => ih u hu)
      | call hcallee hargs =>
          rw [Template.substitute, Template.substitute, Template.substituteAll_eq_map,
            Template.substituteAll_eq_map]
          obtain ⟨ihcallee, ihargs⟩ := List.forall_mem_cons.mp ih
          exact .call (ihcallee hcallee) (forall₂_map_of_mem hargs fun u hu _ => ihargs u hu)
      | number n => exact .number n
      | boolean p => exact .boolean p
      | string s => exact .string s
      | pair hcells => exact .pair hcells
      | terminal => exact .terminal
      | nil => exact .nil
      | closure hbody => exact .closure hbody
      | template hbody => exact .template hbody
      | lastCell hhead => exact .lastCell hhead
      | lazyCell hhead hrest => exact .lazyCell hhead hrest

end Value.Displaced

/-! ## Functions of values -/

namespace Displacement

/-- Both results are there and related, or neither is there. -/
inductive Agree {α β : Type} (R : α → β → Prop) : Except Fault α → Except Fault β → Prop where
  | ok {a : α} {b : β} (h : R a b) : Agree R (.ok a) (.ok b)
  | error (fault fault' : Fault) : Agree R (.error fault) (.error fault')

namespace Agree

variable {α β γ δ : Type} {R : α → β → Prop} {S : γ → δ → Prop}

theorem refl (x : Except Fault α) : Agree Eq x x := by
  cases x with
  | ok a => exact .ok rfl
  | error fault => exact .error fault fault

/-- Two operations on values, one after the other. -/
theorem bind {x : Except Fault α} {y : Except Fault β} {k : α → Except Fault γ}
    {l : β → Except Fault δ} (h : Agree R x y) (hk : ∀ a b, R a b → Agree S (k a) (l b)) :
    Agree S (x >>= k) (y >>= l) := by
  cases h with
  | ok hab => exact hk _ _ hab
  | error fault fault' => exact .error fault fault'

end Agree

end Displacement

section Functions

open Displacement (Agree)
open Value (Displaced)

variable {d : Displacement} {v v' a a' b b' : Value} {args args' : List Value}
  {op : Operator} {position : Nat}

/-! ### Numbers -/

/-- Whether a value is a number, and which one, does not change in a displacement. -/
theorem expectNumber_congr (h : Displaced d v v') :
    Operator.expectNumber op position v = Operator.expectNumber op position v' := by
  cases h <;> rfl

theorem expectInteger_congr (h : Displaced d v v') :
    Operator.expectInteger op position v = Operator.expectInteger op position v' := by
  cases h <;> rfl

private theorem foldNumbers_congr (h : List.Forall₂ (Displaced d) args args')
    (f : Number → Number → Except Number.Fault Number) (acc : Number) :
    Operator.foldNumbers op f acc position args = Operator.foldNumbers op f acc position args' := by
  induction h generalizing acc position with
  | nil => rfl
  | cons hv _ ih =>
      rw [Operator.foldNumbers, Operator.foldNumbers, expectNumber_congr hv]
      exact bind_congr fun n => bind_congr fun next => ih next

/-- A number is the same in both runs. -/
theorem Displacement.Agree.number {x y : Except Fault Number} (h : x = y) :
    Agree (Displaced d) (x >>= fun n => pure (.number n)) (y >>= fun n => pure (.number n)) := by
  subst h
  exact (Agree.refl x).bind fun m _ h => .ok (h ▸ .number m)

theorem arithmetic_agree (h : List.Forall₂ (Displaced d) args args')
    (f : Number → Number → Except Number.Fault Number) :
    Agree (Displaced d) (Operator.arithmetic op f args) (Operator.arithmetic op f args') := by
  cases h with
  | nil => exact .error _ _
  | cons hv more =>
      rw [Operator.arithmetic, Operator.arithmetic, expectNumber_congr hv]
      refine (Agree.refl _).bind fun first _ heq => ?_
      subst heq
      exact .number (foldNumbers_congr more f first)

theorem remainderOf_agree (h : List.Forall₂ (Displaced d) args args') :
    Agree (Displaced d) (Operator.remainderOf args) (Operator.remainderOf args') := by
  match h with
  | .cons ha (.cons hb .nil) =>
      rw [Operator.remainderOf, Operator.remainderOf, expectNumber_congr ha, expectNumber_congr hb]
      refine (Agree.refl _).bind fun m _ heq => ?_
      subst heq
      refine (Agree.refl _).bind fun n _ heq => ?_
      subst heq
      exact .number rfl
  | .nil | .cons _ .nil | .cons _ (.cons _ (.cons _ _)) => exact .error _ _

/-! ### Equality and order -/

private theorem allEqual_congr {as as' bs bs' : List Value}
    (has : List.Forall₂ (Displaced d) as as') (hbs : List.Forall₂ (Displaced d) bs bs')
    (hequals : ∀ a ∈ as, ∀ a' b b' : Value, Displaced d a a' → Displaced d b b' →
      a.equals b = a'.equals b') :
    Value.allEqual as bs = Value.allEqual as' bs' := by
  induction has generalizing bs bs' with
  | nil => cases hbs <;> simp [Value.allEqual]
  | cons ha _ ih =>
      obtain ⟨hhead, hothers⟩ := List.forall_mem_cons.mp hequals
      cases hbs with
      | nil => simp [Value.allEqual]
      | cons hb hbs =>
          rw [Value.allEqual, Value.allEqual, hhead _ _ _ ha hb, ih hbs hothers]

/-- Equality answers alike, also in what it has no answer to. -/
theorem equals_congr (ha : Displaced d a a') (hb : Displaced d b b') :
    a.equals b = a'.equals b' := by
  induction a using Value.induction_on_parts generalizing a' b b' with
  | step a ih =>
      have hrows {as as' bs bs' : List Value} (hparts : a.parts = as)
          (has : List.Forall₂ (Displaced d) as as') (hbs : List.Forall₂ (Displaced d) bs bs') :
          (if as.length = bs.length then Value.allEqual as bs else .ok false) =
            if as'.length = bs'.length then Value.allEqual as' bs' else .ok false := by
        rw [has.length_eq, hbs.length_eq, allEqual_congr has hbs fun u hu _ _ _ hu' hb =>
          ih u (hparts ▸ hu) hu' hb]
      cases ha with
      | vector has =>
          cases hb with
          | vector hbs =>
              rw [Value.equals_vector, Value.equals_vector]
              exact hrows rfl has hbs
          | _ => simp [Value.equals, Value.kind]
      | pair has =>
          cases hb with
          | pair hbs =>
              rw [Value.equals_of_listItems rfl rfl, Value.equals_of_listItems rfl rfl]
              exact hrows rfl has.toList hbs.toList
          | terminal => simp [Value.equals, has.isEmpty_eq]
          | _ => simp [Value.equals, Value.kind]
      | terminal =>
          cases hb with
          | pair hbs => simp [Value.equals, hbs.isEmpty_eq]
          | _ => simp [Value.equals, Value.kind]
      | _ => cases hb <;> simp [Value.equals, Value.kind]

private theorem compareTo_congr (ha : Displaced d a a') (hb : Displaced d b b') :
    a.compareTo b = a'.compareTo b' := by
  cases ha <;> cases hb <;> rfl

/-- So is a boolean. -/
theorem Displacement.Agree.boolean {α : Type} {x y : Except Fault α} (h : x = y) (test : α → Bool) :
    Agree (Displaced d) (x >>= fun a => pure (.boolean (test a)))
      (y >>= fun a => pure (.boolean (test a))) := by
  subst h
  exact (Agree.refl x).bind fun a _ h => .ok (h ▸ .boolean (test a))

/-- Equality does not look at scopes. -/
theorem equality_agree (h : List.Forall₂ (Displaced d) args args') :
    Agree (Displaced d) (Operator.equality args) (Operator.equality args') := by
  match h with
  | .cons ha (.cons hb .nil) => exact .boolean (equals_congr ha hb) id
  | .nil | .cons _ .nil | .cons _ (.cons _ (.cons _ _)) => exact .error _ _

theorem comparison_agree (h : List.Forall₂ (Displaced d) args args') (test : Ordering → Bool) :
    Agree (Displaced d) (Operator.comparison op test args)
      (Operator.comparison op test args') := by
  match h with
  | .cons ha (.cons hb .nil) => exact .boolean (compareTo_congr ha hb) test
  | .nil | .cons _ .nil | .cons _ (.cons _ (.cons _ _)) => exact .error _ _

/-! ### Lists and ranges -/

theorem consOf_agree (h : List.Forall₂ (Displaced d) args args') :
    Agree (Displaced d) (Operator.consOf args) (Operator.consOf args') := by
  match h with
  | .nil => exact .ok (.pair .empty)
  | .cons hhead .nil => exact .ok (.pair (.last hhead))
  | .cons hhead (.cons hrest .nil) =>
      cases hrest with
      | terminal => exact .ok (.pair (.last hhead))
      | pair hcells =>
          cases hcells with
          | empty => exact .ok (.pair (.last hhead))
          | last hv => exact .ok (.pair (.cell hhead (.last hv)))
          | cell hv hmore => exact .ok (.pair (.cell hhead (.cell hv hmore)))
      | _ => exact .error _ _
  | .cons _ (.cons _ (.cons _ _)) =>
      simp only [Operator.consOf]
      exact .error _ _

theorem firstOf_agree (h : List.Forall₂ (Displaced d) args args') :
    Agree (Displaced d) (Operator.firstOf args) (Operator.firstOf args') := by
  match h with
  | .cons hv .nil =>
      cases hv with
      | lastCell hhead => exact .ok hhead
      | lazyCell hhead _ => exact .ok hhead
      | pair hcells =>
          cases hcells with
          | empty => exact .error _ _
          | last hhead => exact .ok hhead
          | cell hhead _ => exact .ok hhead
      | _ => exact .error _ _
  | .nil => exact .error _ _
  | .cons _ (.cons _ _) =>
      simp only [Operator.firstOf]
      exact .error _ _

theorem emptiness_agree (h : List.Forall₂ (Displaced d) args args') :
    Agree (Displaced d) (Operator.emptiness args) (Operator.emptiness args') := by
  match h with
  | .cons hv .nil =>
      cases hv with
      | terminal => exact .ok (.boolean true)
      | pair hcells =>
          rw [Operator.emptiness, Operator.emptiness, hcells.isEmpty_eq]
          exact .ok (.boolean _)
      | lastCell _ => exact .ok (.boolean false)
      | lazyCell _ _ => exact .ok (.boolean false)
      | _ => exact .error _ _
  | .nil => exact .error _ _
  | .cons _ (.cons _ _) =>
      simp only [Operator.emptiness]
      exact .error _ _

private theorem rangeFrom_displaced (low high : Int64) (scope : Scope) :
    Displaced d (Operator.rangeFrom low high scope)
      (Operator.rangeFrom low high (d.scope scope)) := by
  unfold Operator.rangeFrom
  split
  · rw [Displacement.root_scope]
    exact .lazyCell (.number _) (.call (.symbol _) (.cons (.number _) (.cons (.number _) .nil)))
  · exact .lastCell (.number _)

theorem rangeOf_agree (h : List.Forall₂ (Displaced d) args args') (scope : Scope) :
    Agree (Displaced d) (Operator.rangeOf scope args)
      (Operator.rangeOf (d.scope scope) args') := by
  match h with
  | .cons hlow (.cons hhigh .nil) =>
      rw [Operator.rangeOf, Operator.rangeOf, expectInteger_congr hlow, expectInteger_congr hhigh]
      refine (Agree.refl _).bind fun low _ heq => ?_
      subst heq
      refine (Agree.refl _).bind fun high _ heq => ?_
      subst heq
      exact .ok (rangeFrom_displaced low high scope)
  | .nil | .cons _ .nil | .cons _ (.cons _ (.cons _ _)) => exact .error _ _

/-! ### Parameters and templates -/

private theorem names_congr {items items' : List Value}
    (h : List.Forall₂ (Displaced d) items items') :
    readParams.names items = readParams.names items' := by
  induction h with
  | nil => rfl
  | cons hv _ ih =>
      cases hv with
      | symbol name => rw [readParams.names, readParams.names, ih]
      | _ => rfl

/-- A displaced parameter list is read as the same names. -/
theorem readParams_congr (h : Displaced d v v') : readParams v = readParams v' := by
  cases h with
  | vector hitems => exact names_congr hitems
  | _ => rfl

/-- A displaced template is filled in with displaced forms. -/
theorem expand_agree {body body' : Value} (hbody : Displaced d body body')
    (h : List.Forall₂ (Displaced d) args args') (params : List String) (span : Span) :
    Agree (Displaced d) (Template.expand params body args span)
      (Template.expand params body' args' span) := by
  unfold Template.expand
  rw [h.length_eq]
  split
  · exact .ok (hbody.substitute (.ofParams h params) span)
  · exact .error _ _

/-- Which primitive a value names does not change in a displacement. -/
theorem primitive?_congr (h : Displaced d v v') :
    Evaluation.primitive? v = Evaluation.primitive? v' := by
  cases h <;> rfl

end Functions

end LazyLisp
