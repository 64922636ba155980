import LazyLisp.Proofs.Bindings
import LazyLisp.Template
import Mathlib.Data.List.Induction

/-!
# Filling in a template

A form is a tree: a call holds its callee and its arguments, a vector its items,
and any other value holds no forms.  A path names a part of it by the places that
lead there.  `Replaces` says what stands in an expansion at the path of a part of
the body, for each sort of part.  It looks at the part alone: whether a symbol is
a parameter, and which argument goes with it, is read off the parameter list and
not off bindings that were built from it.  An argument stands in the expansion as
it is, and the paths of the body end at it, so that nothing is said of what is
inside it but that it is the argument.

What stands at all paths of the body determines the expansion
(`Expands.eq_substitute`), so that this is a description of filling in without
any order in which the parameters are taken.

Filling in twice is filling in once, where the forms of the first row have been
filled in with the second.

## Main results

* `find?_ofParams_eq_some_iff` — the last one of equal parameters counts.
* `expands_substitute`, `Expands.eq_substitute` — the expansion of a body, at
  every path.
* `substitute_substitute` — two rows of forms, one after the other.
* `substitute_self` — parameters in the place of themselves.
* `expand_simultaneous` — all of it for the expansion of a call.
-/

namespace LazyLisp

/-! ## Parts of a form -/

namespace Value

/-- The forms that a form holds directly. -/
def forms : Value → List Value
  | .call callee args _ => callee :: args
  | .vector items => items
  | _ => []

/-- The part of a form that a path leads to. -/
def at? : List Nat → Value → Option Value
  | [], v => some v
  | i :: path, v => v.forms[i]?.bind (at? path)

theorem at?_cons (i : Nat) (path : List Nat) (v : Value) :
    at? (i :: path) v = v.forms[i]?.bind (at? path) := rfl

mutual

/-- The form with all its calls at one place. -/
def placeAt (span : Span) : Value → Value
  | .call callee args _ => .call (callee.placeAt span) (placeAllAt span args) span
  | .vector items => .vector (placeAllAt span items)
  | v => v

/-- The forms with all their calls at one place. -/
def placeAllAt (span : Span) : List Value → List Value
  | [] => []
  | v :: rest => v.placeAt span :: placeAllAt span rest

end

end Value

/-! ## The parameter that a symbol names -/

namespace Bindings

variable {params : List String} {args : List Value} {name : String} {v : Value}

/-- One more parameter comes after the others. -/
theorem ofParams_concat (hlength : params.length = args.length) (last : String) (arg : Value) :
    ofParams (params ++ [last]) (args ++ [arg]) = put last arg (ofParams params args) := by
  rw [ofParams, List.zip_append hlength, List.foldl_append]
  rfl

/-- Another name at the end is at no place of this one. -/
private theorem getElem?_concat_eq_some_iff {last : String} (h : last ≠ name) (i : Nat) :
    (params ++ [last])[i]? = some name ↔ params[i]? = some name := by
  rcases Nat.lt_trichotomy i params.length with hlt | rfl | hgt
  · rw [List.getElem?_append_left hlt]
  · simp [h]
  · have hlength : (params ++ [last]).length ≤ i := by simp; omega
    rw [List.getElem?_eq_none hlength, List.getElem?_eq_none (Nat.le_of_lt hgt)]

/-- A name means the argument at the last place at which it is a parameter. -/
theorem find?_ofParams_eq_some_iff (hlength : params.length = args.length) :
    find? name (ofParams params args) = some v ↔
      ∃ i : Nat, params[i]? = some name ∧ (∀ j, i < j → params[j]? ≠ some name) ∧
        args[i]? = some v := by
  induction params using List.reverseRecOn generalizing args with
  | nil => simp [ofParams, find?]
  | append_singleton params last ih =>
      obtain rfl | ⟨args, arg, rfl⟩ := args.eq_nil_or_concat
      · simp at hlength
      rw [List.concat_eq_append] at hlength ⊢
      have hinit : params.length = args.length := by simpa using hlength
      rw [ofParams_concat hinit]
      by_cases hname : last = name
      · subst hname
        rw [find?_put_self]
        constructor
        · rintro ⟨⟩
          refine ⟨params.length, by simp, fun j hj => ?_, by simp [hinit]⟩
          rw [List.getElem?_eq_none (by simp; omega)]
          exact (Option.some_ne_none _).symm
        · rintro ⟨i, hi, hlast, hv⟩
          have hbound : i < params.length + 1 := by
            simpa using (List.getElem?_eq_some_iff.mp hi).1
          rcases Nat.lt_or_ge i params.length with hlt | hge
          · -- the name comes again behind an earlier place
            exact absurd (by simp) (hlast params.length hlt)
          · have hplace : i = args.length := by omega
            simpa [hplace] using hv
      · rw [find?_put_of_ne hname, ih hinit]
        simp only [ne_eq, getElem?_concat_eq_some_iff hname]
        refine exists_congr fun i => and_congr_right fun hi => and_congr_right fun _ => ?_
        have hbound : i < params.length := (List.getElem?_eq_some_iff.mp hi).1
        rw [List.getElem?_append_left (by omega)]

/-- A symbol stays if and only if it is no parameter. -/
theorem find?_ofParams_eq_none_iff (hlength : params.length = args.length) :
    find? name (ofParams params args) = none ↔ name ∉ params := by
  rw [← mem_names_ofParams hlength, ← isSome_find?_iff, Bool.not_eq_true,
    Option.isSome_eq_false_iff, Option.isNone_iff_eq_none]

end Bindings

namespace Template

open Value (at? at?_cons placeAt placeAllAt)

variable {params : List String} {args : List Value} {span : Span}

/-! ## The expansion of a body -/

/-- What stands in an expansion where this part of the body stood. -/
inductive Replaces (params : List String) (args : List Value) (span : Span) :
    Value → Value → Prop where
  /-- The argument for a parameter, which is the last one of this name. -/
  | argument {name : String} {form : Value} {i : Nat} (hname : params[i]? = some name)
      (hlast : ∀ j, i < j → params[j]? ≠ some name) (hform : args[i]? = some form) :
      Replaces params args span (.symbol name) form
  /-- Any other symbol itself. -/
  | symbol {name : String} (hname : name ∉ params) :
      Replaces params args span (.symbol name) (.symbol name)
  /-- A call with as many arguments, at the place of the call that is expanded. -/
  | call (callee callee' : Value) {forms forms' : List Value} (place : Span)
      (hlength : forms'.length = forms.length) :
      Replaces params args span (.call callee forms place) (.call callee' forms' span)
  /-- A vector of as many items. -/
  | vector {items items' : List Value} (hlength : items'.length = items.length) :
      Replaces params args span (.vector items) (.vector items')
  /-- Any other value itself. -/
  | value {v : Value} (hsymbol : v.kind ≠ .symbol) (hcall : v.kind ≠ .call)
      (hvector : v.kind ≠ .vector) : Replaces params args span v v

private theorem forms_substitute {b : Bindings} {v u : Value} {i : Nat} (h : v.forms[i]? = some u) :
    (substitute b span v).forms[i]? = some (substitute b span u) := by
  cases v with
  | call callee args place =>
      rw [substitute, Value.forms, substituteAll_eq_map, ← List.map_cons, List.getElem?_map]
      exact congrArg _ h
  | vector items =>
      rw [substitute, Value.forms, substituteAll_eq_map, List.getElem?_map]
      exact congrArg _ h
  | _ => simp [Value.forms] at h

/-- A part of the body is filled in where it stands. -/
theorem at?_substitute {b : Bindings} {path : List Nat} {v u : Value}
    (h : at? path v = some u) : at? path (substitute b span v) = some (substitute b span u) := by
  induction path generalizing v with
  | nil =>
      cases h
      rfl
  | cons i path ih =>
      rw [at?_cons] at h
      obtain ⟨form, hform, hpath⟩ := Option.bind_eq_some_iff.mp h
      rw [at?_cons, forms_substitute hform, Option.bind_some]
      exact ih hpath

private theorem replaces_substitute (hlength : params.length = args.length) (v : Value) :
    Replaces params args span v (substitute (.ofParams params args) span v) := by
  cases v with
  | symbol name =>
      rw [substitute]
      cases hfind : Bindings.find? name (.ofParams params args) with
      | none => exact .symbol ((Bindings.find?_ofParams_eq_none_iff hlength).mp hfind)
      | some form =>
          obtain ⟨i, hname, hlast, hform⟩ := (Bindings.find?_ofParams_eq_some_iff hlength).mp hfind
          exact .argument hname hlast hform
  | call callee args place =>
      rw [substitute]
      exact .call _ _ place (by rw [substituteAll_eq_map, List.length_map])
  | vector items =>
      rw [substitute]
      exact .vector (by rw [substituteAll_eq_map, List.length_map])
  | number n => cases n <;> constructor <;> simp [Value.kind, Number.kind]
  | _ => constructor <;> simp [Value.kind]

/-- At every path of the body stands what replaces the part there. -/
def Expands (params : List String) (args : List Value) (span : Span) (body form : Value) : Prop :=
  ∀ path u, at? path body = some u →
    ∃ w, at? path form = some w ∧ Replaces params args span u w

/-- Filling in meets the description at every path. -/
theorem expands_substitute (hlength : params.length = args.length) (body : Value) :
    Expands params args span body (substitute (.ofParams params args) span body) :=
  fun _ u hu => ⟨_, at?_substitute hu, replaces_substitute hlength u⟩

/-- Parts in the same place expand each other if the wholes do. -/
theorem Expands.part {body form u w : Value} (h : Expands params args span body form) {i : Nat}
    (hu : body.forms[i]? = some u) (hw : form.forms[i]? = some w) :
    Expands params args span u w := by
  intro path part hpart
  have hbody : at? (i :: path) body = some part := by
    rw [at?_cons, hu, Option.bind_some, hpart]
  obtain ⟨part', hpart', hreplaces⟩ := h _ _ hbody
  rw [at?_cons, hw, Option.bind_some] at hpart'
  exact ⟨part', hpart', hreplaces⟩

mutual

/-- What stands at the paths of a body determines its expansion. -/
theorem Expands.eq_substitute (hlength : params.length = args.length) :
    ∀ {body form : Value}, Expands params args span body form →
      form = substitute (.ofParams params args) span body
  | .call callee forms place, form, h => by
      obtain ⟨w, hw, hreplaces⟩ := h [] _ rfl
      cases hw
      cases hreplaces with
      | call _ callee' _ hargs =>
          have hcallee : Expands params args span callee callee' := h.part (i := 0) rfl rfl
          rw [substitute, ← hcallee.eq_substitute hlength,
            ← eq_substituteAll hlength forms hargs fun i u w hu hw => h.part (i := i + 1) hu hw]
      | value _ hcall _ => exact absurd rfl hcall
  | .vector items, form, h => by
      obtain ⟨w, hw, hreplaces⟩ := h [] _ rfl
      cases hw
      cases hreplaces with
      | vector hitems =>
          rw [substitute,
            ← eq_substituteAll hlength items hitems fun i u w hu hw => h.part (i := i) hu hw]
      | value _ _ hvector => exact absurd rfl hvector
  | .symbol name, form, h => by
      obtain ⟨w, hw, hreplaces⟩ := h [] _ rfl
      cases hw
      cases hreplaces with
      | argument hname hlast hform =>
          have hfind := (Bindings.find?_ofParams_eq_some_iff hlength).mpr ⟨_, hname, hlast, hform⟩
          rw [substitute, hfind, Option.getD_some]
      | symbol hname =>
          rw [substitute, (Bindings.find?_ofParams_eq_none_iff hlength).mpr hname, Option.getD_none]
      | value hsymbol _ _ => exact absurd rfl hsymbol
  | .number _, form, h | .boolean _, form, h | .string _, form, h | .pair _, form, h
  | .terminal, form, h | .nil, form, h | .closure _ _ _ _, form, h | .template _ _, form, h
  | .lastCell _, form, h | .lazyCell _ _ _, form, h => by
      obtain ⟨w, hw, hreplaces⟩ := h [] _ rfl
      cases hw
      cases hreplaces
      rfl

theorem eq_substituteAll (hlength : params.length = args.length) :
    ∀ (items : List Value) {items' : List Value}, items'.length = items.length →
      (∀ (i : Nat) u w, items[i]? = some u → items'[i]? = some w → Expands params args span u w) →
      items' = substituteAll (.ofParams params args) span items
  | [], items', hitems, _ => List.eq_nil_of_length_eq_zero hitems
  | v :: rest, [], hitems, _ => by cases hitems
  | v :: rest, v' :: rest', hitems, h => by
      have hhead : Expands params args span v v' := h 0 v v' rfl rfl
      rw [substituteAll, ← hhead.eq_substitute hlength,
        ← eq_substituteAll hlength rest (Nat.succ.inj hitems) fun i u w hu hw =>
          h (i + 1) u w hu hw]

end

/-! ## Filling in twice -/

/-- The forms of two rows that are filled in one after the other, the second one
with calls at this place. -/
def andThen (f g : Bindings) (span : Span) : Bindings :=
  f.map (fun (name, form) => (name, substitute g span form)) ++ g

private theorem find?_andThen (f g : Bindings) (span : Span) (name : String) :
    (andThen f g span).find? name =
      ((f.find? name).map (substitute g span)).or (g.find? name) := by
  induction f with
  | nil => rfl
  | cons entry rest ih =>
      obtain ⟨other, form⟩ := entry
      rw [andThen, List.map_cons, List.cons_append, Bindings.find?, Bindings.find?]
      by_cases hname : other = name
      · rw [if_pos hname, if_pos hname]
        rfl
      · rw [if_neg hname, if_neg hname]
        exact ih

section Twice

variable {f g h : Bindings} {span' : Span}

mutual

/-- Filling in twice is filling in once with the forms that were filled in. -/
theorem substitute_substitute
    (hh : ∀ name, h.find? name = ((f.find? name).map (substitute g span')).or (g.find? name)) :
    ∀ v : Value, substitute g span' (substitute f span v) = substitute h span' v
  | .symbol name => by
      rw [substitute, substitute, hh name]
      cases f.find? name with
      | none => rw [Option.getD_none, substitute, Option.map_none, Option.none_or]
      | some form => rw [Option.getD_some, Option.map_some, Option.some_or, Option.getD_some]
  | .call callee args place => by
      rw [substitute, substitute, substitute, substitute_substitute hh callee,
        substituteAll_substituteAll hh args]
  | .vector items => by
      rw [substitute, substitute, substitute, substituteAll_substituteAll hh items]
  | .number _ | .boolean _ | .string _ | .pair _ | .terminal | .nil | .closure _ _ _ _
  | .template _ _ | .lastCell _ | .lazyCell _ _ _ => rfl

theorem substituteAll_substituteAll
    (hh : ∀ name, h.find? name = ((f.find? name).map (substitute g span')).or (g.find? name)) :
    ∀ items : List Value,
      substituteAll g span' (substituteAll f span items) = substituteAll h span' items
  | [] => rfl
  | v :: rest => by
      rw [substituteAll, substituteAll, substituteAll, substitute_substitute hh v,
        substituteAll_substituteAll hh rest]

end

end Twice

/-! ## Parameters for themselves -/

section Self

variable {b : Bindings}

mutual

/-- If every name stands for itself, only the places of calls change. -/
theorem substitute_self (hb : ∀ name form, b.find? name = some form → form = .symbol name) :
    ∀ v : Value, substitute b span v = v.placeAt span
  | .symbol name => by
      rw [substitute, placeAt]
      · cases hfind : b.find? name with
        | none => rfl
        | some form => rw [hb name form hfind, Option.getD_some]
      all_goals
        intros
        contradiction
  | .call callee args place => by
      rw [substitute, placeAt, substitute_self hb callee, substituteAll_self hb args]
  | .vector items => by
      rw [substitute, placeAt, substituteAll_self hb items]
  | .number _ | .boolean _ | .string _ | .pair _ | .terminal | .nil | .closure _ _ _ _
  | .template _ _ | .lastCell _ | .lazyCell _ _ _ => rfl

theorem substituteAll_self (hb : ∀ name form, b.find? name = some form → form = .symbol name) :
    ∀ items : List Value, substituteAll b span items = placeAllAt span items
  | [] => rfl
  | v :: rest => by
      rw [substituteAll, placeAllAt, substitute_self hb v, substituteAll_self hb rest]

end

end Self

private theorem expand_symbols (params : List String) (body : Value) (span : Span) :
    expand params body (params.map .symbol) span = .ok (body.placeAt span) := by
  have hlength : params.length = (params.map Value.symbol).length := by rw [List.length_map]
  rw [expand_of_length_eq hlength]
  refine congrArg _ (substitute_self (fun name form hfind => ?_) body)
  obtain ⟨i, hname, -, hform⟩ := (Bindings.find?_ofParams_eq_some_iff hlength).mp hfind
  rw [List.getElem?_map, hname, Option.map_some] at hform
  exact (Option.some.inj hform).symm

/-! ## Simultaneous substitution -/

/-- The expansion of a call with the right number of arguments is the one form at
whose paths the parts of the body are replaced, each on its own: a parameter by
the argument as it is, calls by calls at the place of this one.  What two rows of
forms do one after the other is done at once by the forms of the first row, filled
in with the second, and those of the second row.  Parameters in the place of
themselves, repeated or not, leave the body as it is, with its calls at the place
of the one that is expanded. -/
theorem expand_simultaneous :
    (∀ (params : List String) (args : List Value) (span : Span) (body : Value),
      params.length = args.length →
        (∃ form, expand params body args span = .ok form) ∧
        ∀ form, expand params body args span = .ok form ↔
          Expands params args span body form) ∧
    (∀ (f g h : Bindings) (span span' : Span),
      (∀ name, h.find? name = ((f.find? name).map (substitute g span')).or (g.find? name)) →
        ∀ body, substitute g span' (substitute f span body) = substitute h span' body) ∧
    (∀ (params : List String) (body : Value) (span : Span),
      expand params body (params.map .symbol) span = .ok (body.placeAt span)) := by
  refine ⟨fun params args span body hlength => ?_, fun f g h span span' => ?_, expand_symbols⟩
  · rw [expand_of_length_eq hlength]
    refine ⟨⟨_, rfl⟩, fun form => ⟨?_, fun h => ?_⟩⟩
    · rintro ⟨⟩
      exact expands_substitute hlength body
    · rw [h.eq_substitute hlength]
  · exact substitute_substitute

/-- A parameter that comes twice, and arguments that name parameters: none of them
is filled in again, and the call among them stays where it was written.  Of two
rows the first one has a form for a name that the second one binds as well. -/
theorem expand_simultaneous_overlap :
    let params : List String := ["a", "b", "a"]
    let inner : Value := .call (.symbol "a") [] ⟨20, 23⟩
    let args : List Value := [.integer 1, inner, .symbol "b"]
    let body : Value :=
      .call (.symbol "a") [.vector [.symbol "b", .symbol "c"], .call (.symbol "b") [] ⟨4, 7⟩] ⟨0, 9⟩
    let form : Value :=
      .call (.symbol "b") [.vector [inner, .symbol "c"], .call inner [] ⟨11, 30⟩] ⟨11, 30⟩
    let f : Bindings := [("a", inner)]
    let g : Bindings := [("a", .symbol "c"), ("b", .integer 2)]
    params.length = args.length ∧ expand params body args ⟨11, 30⟩ = .ok form ∧
      Expands params args ⟨11, 30⟩ body form ∧
      (∀ name, (andThen f g ⟨5, 6⟩).find? name =
        ((f.find? name).map (substitute g ⟨5, 6⟩)).or (g.find? name)) ∧
      substitute g ⟨5, 6⟩ (substitute f ⟨3, 4⟩ body) = substitute (andThen f g ⟨5, 6⟩) ⟨5, 6⟩ body ∧
      substitute g ⟨5, 6⟩ (substitute f ⟨3, 4⟩ body) =
        .call (.call (.symbol "c") [] ⟨5, 6⟩)
          [.vector [.integer 2, .symbol "c"], .call (.integer 2) [] ⟨5, 6⟩] ⟨5, 6⟩ ∧
      expand params body (params.map .symbol) ⟨11, 30⟩ = .ok (body.placeAt ⟨11, 30⟩) := by
  intro params inner args body form f g
  obtain ⟨hexpand, htwice, hself⟩ := expand_simultaneous
  have hlength : params.length = args.length := rfl
  have hform : expand params body args ⟨11, 30⟩ = .ok form := by with_unfolding_all rfl
  have hboth := find?_andThen f g ⟨5, 6⟩
  refine ⟨hlength, hform, ((hexpand params args ⟨11, 30⟩ body hlength).2 form).mp hform, hboth,
    htwice f g _ ⟨3, 4⟩ ⟨5, 6⟩ hboth body, ?_, hself params body ⟨11, 30⟩⟩
  with_unfolding_all rfl

end Template

end LazyLisp
