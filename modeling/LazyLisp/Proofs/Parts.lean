import LazyLisp.Proofs.Bindings
import LazyLisp.Proofs.Grammar
import LazyLisp.Template

/-!
# Demands on every part of a value

Values hold values: a list its elements, a function its body, a lazy cell
its head and the form of its rest, a call its callee and its arguments.  A
demand that is to last through an evaluation has to be met by all of these,
however deep, since programs take values apart.  `Everywhere` is that
closure of a demand, and one lemma here says that filling in a template
keeps it.

What the reader makes of a text has only parts that can be written down:
literals, symbols, vectors and calls.

## Main results

* `Everywhere.substitute` — a template that is filled in meets a demand
  everywhere if its body and the forms do.
* `Reader.Derives.everywhere` — so does a form that is read, if its atoms and
  calls do.
* `Reader.written_of_read` — a form that was read is written everywhere.
-/

namespace LazyLisp

namespace Value

/-- What a value holds directly. -/
def parts : Value → List Value
  | .vector items => items
  | .pair cells => cells.toList
  | .closure _ _ body _ => [body]
  | .template _ body => [body]
  | .lastCell head => [head]
  | .lazyCell head rest _ => [head, rest]
  | .call callee args _ => callee :: args
  | _ => []

private theorem sizeOf_lt_of_mem_toList {cells : Chain Value} {u : Value} (h : u ∈ cells.toList) :
    sizeOf u < sizeOf cells := by
  induction cells with
  | empty => cases h
  | last v =>
      cases List.mem_singleton.mp h
      simp
  | cell v rest ih =>
      rcases List.mem_cons.mp h with rfl | hrest
      · simp only [Chain.cell.sizeOf_spec]
        omega
      · have := ih hrest
        simp only [Chain.cell.sizeOf_spec]
        omega

private theorem sizeOf_lt_of_mem_parts {u v : Value} (h : u ∈ v.parts) : sizeOf u < sizeOf v := by
  cases v with
  | vector items =>
      have : sizeOf u < sizeOf items := List.sizeOf_lt_of_mem h
      simp only [vector.sizeOf_spec]
      omega
  | pair cells =>
      have := sizeOf_lt_of_mem_toList h
      simp only [pair.sizeOf_spec]
      omega
  | call callee args span =>
      rcases List.mem_cons.mp h with rfl | hargs
      · simp only [call.sizeOf_spec]
        omega
      · have := List.sizeOf_lt_of_mem hargs
        simp only [call.sizeOf_spec]
        omega
  | closure _ _ body _ | template _ body | lastCell body =>
      cases List.mem_singleton.mp h
      simp only [closure.sizeOf_spec, template.sizeOf_spec, lastCell.sizeOf_spec]
      omega
  | lazyCell head rest scope =>
      simp only [parts, List.mem_cons, List.not_mem_nil, or_false] at h
      rcases h with rfl | rfl <;> simp only [lazyCell.sizeOf_spec] <;> omega
  | _ => cases h

/-- What holds of a value if it holds of all its parts holds of all values. -/
@[elab_as_elim]
theorem induction_on_parts {P : Value → Prop} (step : ∀ v, (∀ u ∈ v.parts, P u) → P v)
    (v : Value) : P v :=
  step v fun u hu =>
    have := sizeOf_lt_of_mem_parts hu
    induction_on_parts step u
termination_by sizeOf v

/-- The demand is met by the value and by all its parts, at any depth. -/
inductive Everywhere (P : Value → Prop) : Value → Prop where
  | intro {v : Value} (here : P v) (inside : ∀ u ∈ v.parts, Everywhere P u) : Everywhere P v

namespace Everywhere

variable {P Q : Value → Prop} {v : Value}

/-- A demand that is met everywhere is met by the value itself. -/
theorem here (h : Everywhere P v) : P v := by
  cases h with
  | intro here _ => exact here

/-- A demand that is met everywhere is met everywhere in each part. -/
theorem inside (h : Everywhere P v) {u : Value} (hu : u ∈ v.parts) : Everywhere P u := by
  cases h with
  | intro _ inside => exact inside u hu

/-- A weaker demand is met everywhere as well. -/
theorem mono (hPQ : ∀ u, P u → Q u) (h : Everywhere P v) : Everywhere Q v := by
  induction h with
  | intro here _ ih => exact .intro (hPQ _ here) ih

theorem of_parts_eq_nil (hparts : v.parts = []) (h : P v) : Everywhere P v :=
  .intro h (by simp [hparts])

mutual

/-- Filling forms in for symbols and giving calls another span turns a body
into a form that meets a demand, if all vectors and all calls with that span
meet it, and so do the other parts of a body. -/
theorem substitute {forms : Bindings} {span : Span}
    (hforms : ∀ name u, (name, u) ∈ forms → Everywhere P u)
    (hvector : ∀ items, P (.vector items)) (hcall : ∀ callee args, P (.call callee args span))
    (hother : ∀ u, Everywhere Q u → u.kind ≠ .vector → u.kind ≠ .call → Everywhere P u) :
    ∀ v : Value, Everywhere Q v → Everywhere P (Template.substitute forms span v)
  | .symbol name, h => by
      rw [Template.substitute]
      cases hfind : forms.find? name with
      | none => exact hother _ h nofun nofun
      | some u => exact hforms name u (Bindings.mem_of_find? hfind)
  | .call callee args _, h => by
      rw [Template.substitute]
      refine .intro (hcall _ _) (List.forall_mem_cons.mpr ⟨?_, ?_⟩)
      · exact substitute hforms hvector hcall hother callee (h.inside (by simp [parts]))
      · exact substituteAll hforms hvector hcall hother args
          fun u hu => h.inside (by simp [parts, hu])
  | .vector items, h => by
      rw [Template.substitute]
      exact .intro (hvector _)
        (substituteAll hforms hvector hcall hother items fun u hu => h.inside hu)
  | .number n, h => hother _ h (by cases n <;> nofun) (by cases n <;> nofun)
  | .boolean _, h | .string _, h | .pair _, h | .terminal, h | .nil, h | .closure _ _ _ _, h
  | .template _ _, h | .lastCell _, h | .lazyCell _ _ _, h => hother _ h nofun nofun

theorem substituteAll {forms : Bindings} {span : Span}
    (hforms : ∀ name u, (name, u) ∈ forms → Everywhere P u)
    (hvector : ∀ items, P (.vector items)) (hcall : ∀ callee args, P (.call callee args span))
    (hother : ∀ u, Everywhere Q u → u.kind ≠ .vector → u.kind ≠ .call → Everywhere P u) :
    ∀ items : List Value, (∀ u ∈ items, Everywhere Q u) →
      ∀ u ∈ Template.substituteAll forms span items, Everywhere P u
  | [], _ => by simp [Template.substituteAll]
  | v :: rest, h => by
      obtain ⟨hv, hrest⟩ := List.forall_mem_cons.mp h
      rw [Template.substituteAll]
      exact List.forall_mem_cons.mpr ⟨substitute hforms hvector hcall hother v hv,
        substituteAll hforms hvector hcall hother rest hrest⟩

end

end Everywhere

/-! ## Forms that are written down -/

/-- The value is a literal, a symbol, a vector or a call. -/
def isSyntactic : Value → Bool
  | .number _ | .boolean _ | .string _ | .vector _ | .symbol _ | .call _ _ _ => true
  | _ => false

/-- The value can be the text of a program, or a part of one. -/
def Written (v : Value) : Prop := v.Everywhere fun u => u.isSyntactic = true

theorem written_symbol (name : String) : (Value.symbol name).Written :=
  .of_parts_eq_nil rfl rfl

/-- A call of written forms is written. -/
theorem Written.call {callee : Value} {args : List Value} (hcallee : callee.Written)
    (hargs : ∀ form ∈ args, form.Written) (span : Span) : (Value.call callee args span).Written :=
  .intro rfl (List.forall_mem_cons.mpr ⟨hcallee, hargs⟩)

/-- Written forms filled into a written form give a written form. -/
theorem Written.substitute {forms : Bindings} {v : Value} (h : v.Written)
    (hforms : ∀ name u, (name, u) ∈ forms → u.Written) (span : Span) :
    (Template.substitute forms span v).Written :=
  Everywhere.substitute hforms (fun _ => rfl) (fun _ _ => rfl) (fun _ hu _ _ => hu) v h

end Value

/-! ## What the reader makes -/

namespace Reader

theorem parts_of_atom? {kind : Token.Kind} {form : Value} (h : atom? kind = some form) :
    form.parts = [] := by
  cases kind <;> cases h <;> rfl

/-- A demand is met everywhere in a form if it is met by its atoms and
vectors, and by calls from one of its tokens to another. -/
theorem Derives.everywhere {P : Value → Prop} {tokens : List Token} {form : Value}
    (h : Derives tokens form) (hatom : ∀ kind u, atom? kind = some u → P u)
    (hvector : ∀ items, P (.vector items))
    (hcall : ∀ s ∈ tokens, ∀ t ∈ tokens, ∀ callee args,
      P (.call callee args (s.span.merge t.span))) : form.Everywhere P := by
  induction h with
  | atom hkind => exact .of_parts_eq_nil (parts_of_atom? hkind) (hatom _ _ hkind)
  | @call opening closing w callee rows _ _ _ _ ihcallee ihrows =>
      refine .intro (hcall _ (by simp) _ (by simp) _ _) (List.forall_mem_cons.mpr ⟨?_, ?_⟩)
      · exact ihcallee fun s hs t ht => hcall s (by simp [hs]) t (by simp [ht])
      · intro u hu
        obtain ⟨row, hrow, rfl⟩ := List.mem_map.mp hu
        have hwords : ∀ t ∈ row.1, t ∈ rows.flatMap Prod.fst :=
          fun t ht => List.mem_flatMap_of_mem hrow ht
        exact ihrows row hrow fun s hs t ht =>
          hcall s (by simp [hwords s hs]) t (by simp [hwords t ht])
  | @vector opening closing rows _ _ _ ihrows =>
      refine .intro (hvector _) fun u hu => ?_
      obtain ⟨row, hrow, rfl⟩ := List.mem_map.mp hu
      have hwords : ∀ t ∈ row.1, t ∈ rows.flatMap Prod.fst :=
        fun t ht => List.mem_flatMap_of_mem hrow ht
      exact ihrows row hrow fun s hs t ht =>
        hcall s (by simp [hwords s hs]) t (by simp [hwords t ht])

/-- A form that was read from a text is written everywhere. -/
theorem written_of_read {source : String} {form : Value} (h : read source = .ok form) :
    form.Written := by
  obtain ⟨tokens, -, hderives⟩ := read_eq_ok_iff.mp h
  refine hderives.everywhere (fun kind u hu => ?_) (fun _ => rfl) fun _ _ _ _ _ _ => rfl
  cases kind <;> cases hu <;> rfl

end Reader

end LazyLisp
