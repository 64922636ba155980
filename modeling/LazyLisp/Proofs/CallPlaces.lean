import LazyLisp.Proofs.Lexing.MaximalMunch
import LazyLisp.Proofs.Parts

/-!
# Where the calls of a program stand

A call that was read reaches from its opening bracket to its closing one, so
its span is a stretch of the text, and never an empty one.  The span that is
given to calls which no text spells can therefore not be mistaken for the
place of one that a text does spell.

What occurs in a form is derived by a stretch of the form's tokens; so the
places of tokens are all there is to know about those of calls.

## Main results

* `Reader.Derives.exists_word` — what occurs in a form is derived by a stretch
  of its tokens.
* `Reader.span_of_occursIn` — the calls of a text stand in it.
-/

namespace LazyLisp

namespace Value

/-- The value is the other one or a part of it, at any depth. -/
inductive OccursIn (u : Value) : Value → Prop where
  | self : OccursIn u u
  | part {t v : Value} (ht : t ∈ v.parts) (h : OccursIn u t) : OccursIn u v

/-- The place where a call stands in a form. -/
def HasCallAt (form : Value) (span : Span) : Prop :=
  ∃ callee args, (Value.call callee args span).OccursIn form

private theorem OccursIn.of_mem_parts {u v w : Value} (hu : u ∈ v.parts) (h : v.OccursIn w) :
    u.OccursIn w := by
  induction h with
  | self => exact .part hu .self
  | part ht _ ih => exact .part ht ih

/-- In a value that occurs in another one, everything does. -/
theorem Everywhere.and_occursIn {P : Value → Prop} {v w : Value} (h : v.Everywhere P)
    (hv : v.OccursIn w) : v.Everywhere fun u => P u ∧ u.OccursIn w := by
  induction h with
  | intro here _ ih => exact .intro ⟨here, hv⟩ fun u hu => ih u hu (hv.of_mem_parts hu)

end Value

/-! ## The places of tokens -/

/-- The length in bytes is the length of the encoded text. -/
theorem Text.byteLength_toList (s : String) : byteLength s.toList = s.utf8ByteSize := by
  have hlist (cs : List Char) : byteLength cs = (String.ofList cs).utf8ByteSize := by
    induction cs with
    | nil => rfl
    | cons c rest ih =>
        rw [String.ofList_cons, String.utf8ByteSize_append, String.utf8ByteSize_singleton,
          byteLength_cons, ih]
  rw [hlist, String.ofList_toList]

/-- A token is a stretch of the text that is not empty. -/
theorem Token.span_of_tokenize {source : String} {tokens : List Token}
    (h : tokenize source = .ok tokens) :
    ∀ t ∈ tokens, t.span.start < t.span.stop ∧ t.span.stop ≤ source.utf8ByteSize := by
  intro t ht
  obtain ⟨stop, hcut⟩ := scan_eq_ok_iff.mp h
  obtain ⟨before, piece, after, htext, hpiece, hstart, hstop⟩ := (hcut.laid rfl).boundaries t ht
  have hpos := Text.byteLength_pos hpiece
  have hsize := Text.byteLength_toList source
  rw [htext, Text.byteLength_append, Text.byteLength_append] at hsize
  omega

/-! ## The words of parts -/

namespace Reader

section Derives

variable {w : List Token} {form u callee : Value} {args : List Value} {span : Span}

/-- The parts of a form are derived by words that stand in a row among its
tokens. -/
theorem Derives.exists_rows (h : Derives w form) :
    ∃ (before : List Token) (rows : List (List Token × Value)) (after : List Token),
      w = before ++ (rows.flatMap Prod.fst ++ after) ∧
      form.parts = rows.map Prod.snd ∧ ∀ row ∈ rows, Derives row.1 row.2 := by
  cases h with
  | @atom t _ hatom =>
      exact ⟨[t], [], [], rfl, parts_of_atom? hatom, derives_of_mem_nil⟩
  | @call opening closing w callee rows _ hcallee hrows _ =>
      exact ⟨[opening], (w, callee) :: rows, [closing], by simp, rfl,
        List.forall_mem_cons.mpr ⟨hcallee, hrows⟩⟩
  | @vector opening closing rows _ hrows _ =>
      exact ⟨[opening], rows, [closing], by simp, rfl, hrows⟩

/-- What occurs in a form is derived by a stretch of its tokens. -/
theorem Derives.exists_word (h : Derives w form) (hu : u.OccursIn form) :
    ∃ before word after, w = before ++ (word ++ after) ∧ Derives word u := by
  induction hu generalizing w with
  | self => exact ⟨[], w, [], by simp, h⟩
  | part ht _ ih =>
      obtain ⟨before, rows, after, rfl, hparts, hrows⟩ := h.exists_rows
      rw [hparts] at ht
      obtain ⟨row, hrow, rfl⟩ := List.mem_map.mp ht
      obtain ⟨before', word, after', hword, hderives⟩ := ih (hrows row hrow)
      obtain ⟨earlier, later, rfl⟩ := List.append_of_mem hrow
      refine ⟨before ++ (earlier.flatMap Prod.fst ++ before'), word,
        after' ++ (later.flatMap Prod.fst ++ after), ?_, hderives⟩
      simp [hword]

/-- A call is derived by the words of its parts between its brackets. -/
theorem Derives.call_cases (h : Derives w (.call callee args span)) :
    ∃ (opening closing : Token) (rows : List (List Token × Value)),
      w = opening :: (rows.flatMap Prod.fst ++ [closing]) ∧
      opening.kind = .leftParen ∧ closing.kind = .rightParen ∧
      span = opening.span.merge closing.span ∧ callee :: args = rows.map Prod.snd ∧
      ∀ row ∈ rows, Derives row.1 row.2 := by
  cases h with
  | @atom t _ hatom => cases hkind : t.kind <;> rw [hkind] at hatom <;> cases hatom
  | @call opening closing w callee rows hopening hcallee hrows hclosing =>
      exact ⟨opening, closing, (w, callee) :: rows, by simp, hopening, hclosing, rfl, rfl,
        List.forall_mem_cons.mpr ⟨hcallee, hrows⟩⟩

/-- A call in a form reaches from one of its tokens to another. -/
theorem Derives.exists_merge (h : Derives w form) (hcall : form.HasCallAt span) :
    ∃ opening ∈ w, ∃ closing ∈ w, span = opening.span.merge closing.span := by
  obtain ⟨callee, args, hoccurs⟩ := hcall
  obtain ⟨before, word, after, rfl, hderives⟩ := h.exists_word hoccurs
  obtain ⟨opening, closing, rows, rfl, -, -, hspan, -⟩ := hderives.call_cases
  exact ⟨opening, by simp, closing, by simp, hspan⟩

end Derives

/-! ## The places of calls -/

/-- A call that occurs in a form that was read reaches from one token to
another. -/
theorem exists_tokens_of_occursIn {source : String} {form callee : Value} {args : List Value}
    {span : Span} (h : read source = .ok form)
    (hcall : (Value.call callee args span).OccursIn form) :
    ∃ tokens, Token.tokenize source = .ok tokens ∧
      ∃ s ∈ tokens, ∃ t ∈ tokens, span = s.span.merge t.span := by
  obtain ⟨tokens, htokens, hderives⟩ := read_eq_ok_iff.mp h
  exact ⟨tokens, htokens, hderives.exists_merge ⟨callee, args, hcall⟩⟩

/-- A call that occurs in a form that was read is a stretch of the text that
is not empty. -/
theorem span_of_occursIn {source : String} {form callee : Value} {args : List Value}
    {span : Span} (h : read source = .ok form)
    (hcall : (Value.call callee args span).OccursIn form) :
    span.start < span.stop ∧ span.stop ≤ source.utf8ByteSize := by
  obtain ⟨tokens, htokens, s, hs, t, ht, rfl⟩ := exists_tokens_of_occursIn h hcall
  have hopening := Token.span_of_tokenize htokens s hs
  have hclosing := Token.span_of_tokenize htokens t ht
  simp only [Span.merge_start, Span.merge_stop]
  omega

end Reader

end LazyLisp
