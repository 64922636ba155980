import LazyLisp.Proofs.Brackets.Tokens
import LazyLisp.Proofs.CallPlaces
import LazyLisp.Proofs.Lexing.Slices
import Mathlib.Order.MinMax

/-!
# The text of a call

The span of a call is the stretch of the text that spells it.  Whoever cuts this
stretch out of the text and reads it gets the call again, at the places that
count from the beginning of the stretch.

A part of a form is derived by a stretch of the tokens, and the stretches of
different parts of one form follow each other.  The calls inherit the order of
the tokens: a call stands between the brackets of the one around it, and behind
the calls in the parts before.

## Main results

* `Derives.mapPlaces` — tokens at other places derive the form at other places.
* `read_call_slice` — the text of a call is read as that call, and the places of
  calls are nested and ordered as the calls are.
-/

namespace LazyLisp

private theorem Span.merge_map {g : Nat → Nat} (hg : Monotone g) (a b : Span) :
    (a.map g).merge (b.map g) = (a.merge b).map g := by
  rw [Span.merge, Span.merge, Span.map, Span.map, Span.map, hg.map_min, hg.map_max]

/-! ## Forms at other places -/

namespace Value

mutual

/-- The form with its calls at other places. -/
def mapPlaces (g : Nat → Nat) : Value → Value
  | .call callee args span => .call (callee.mapPlaces g) (mapAllPlaces g args) (span.map g)
  | .vector items => .vector (mapAllPlaces g items)
  | v => v

/-- The forms with their calls at other places. -/
def mapAllPlaces (g : Nat → Nat) : List Value → List Value
  | [] => []
  | v :: rest => v.mapPlaces g :: mapAllPlaces g rest

end

private theorem mapAllPlaces_eq_map (g : Nat → Nat) (items : List Value) :
    mapAllPlaces g items = items.map (mapPlaces g) := by
  induction items with
  | nil => rfl
  | cons v rest ih => rw [mapAllPlaces, ih, List.map_cons]

end Value

namespace Reader

section Derives

variable {w : List Token} {form u callee : Value} {args : List Value} {span : Span}

private theorem mapPlaces_of_atom? {kind : Token.Kind} (h : atom? kind = some form)
    (g : Nat → Nat) : form.mapPlaces g = form := by
  cases kind <;> cases h <;> rfl

/-- Tokens at other places derive the form at other places. -/
theorem Derives.mapPlaces {g : Nat → Nat} (hg : Monotone g) (h : Derives w form) :
    Derives (w.map (Token.mapPlaces g)) (form.mapPlaces g) := by
  have hmoved {rows : List (List Token × Value)}
      (ih : ∀ row ∈ rows, Derives (row.1.map (Token.mapPlaces g)) (row.2.mapPlaces g)) :
      ∀ row ∈ rows.map (Prod.map (List.map (Token.mapPlaces g)) (Value.mapPlaces g)),
        Derives row.1 row.2 := by
    intro row hrow
    obtain ⟨row', hrow', rfl⟩ := List.mem_map.mp hrow
    exact ih row' hrow'
  induction h with
  | atom hatom =>
      rw [mapPlaces_of_atom? hatom]
      exact .atom hatom
  | @call opening closing w callee rows hopening _ _ hclosing ihcallee ihrows =>
      have hopening' : (opening.mapPlaces g).kind = .leftParen := hopening
      have hclosing' : (closing.mapPlaces g).kind = .rightParen := hclosing
      have hcall := Derives.call hopening' ihcallee (hmoved ihrows) hclosing'
      simpa [Value.mapPlaces, Value.mapAllPlaces_eq_map, Span.merge_map hg, List.map_flatMap,
        List.flatMap_map, Function.comp_def] using hcall
  | @vector opening closing rows hopening _ hclosing ihrows =>
      have hopening' : (opening.mapPlaces g).kind = .leftBracket := hopening
      have hclosing' : (closing.mapPlaces g).kind = .rightBracket := hclosing
      have hvector := Derives.vector hopening' (hmoved ihrows) hclosing'
      simpa [Value.mapPlaces, Value.mapAllPlaces_eq_map, List.map_flatMap, List.flatMap_map,
        Function.comp_def] using hvector

/-! ## Places -/

/-- Each token stands behind the one before it. -/
structure Ordered (tokens : List Token) : Prop where
  start_lt : ∀ t ∈ tokens, t.span.start < t.span.stop
  pairwise : tokens.Pairwise fun t u => t.span.stop ≤ u.span.start

theorem Ordered.sublist {tokens part : List Token} (h : Ordered tokens)
    (hpart : part.Sublist tokens) : Ordered part where
  start_lt t ht := h.start_lt t (hpart.subset ht)
  pairwise := h.pairwise.sublist hpart

theorem ordered_of_cut {offset stop : Nat} {text : List Char} {tokens : List Token}
    (h : Token.Cut offset text tokens stop []) : Ordered tokens where
  start_lt t ht := by
    obtain ⟨before, piece, after, -, hpiece, -, hstop⟩ := (h.laid rfl).boundaries t ht
    have hpos := Text.byteLength_pos hpiece
    omega
  pairwise := (h.laid rfl).pairwise

/-- A call begins with its opening bracket and ends with its closing one. -/
theorem Ordered.merge_eq {opening closing : Token} {inner : List Token}
    (h : Ordered (opening :: (inner ++ [closing]))) :
    opening.span.merge closing.span = ⟨opening.span.start, closing.span.stop⟩ := by
  have hopening := h.start_lt opening (by simp)
  have hclosing := h.start_lt closing (by simp)
  have hmem : closing ∈ inner ++ [closing] := by simp
  have hbetween := List.rel_of_pairwise_cons h.pairwise hmem
  rw [Span.merge, Nat.min_eq_left (by omega), Nat.max_eq_right (by omega)]

/-- The calls in the parts of a call stand between its brackets. -/
theorem Derives.between (h : Derives w (.call callee args span)) (hw : Ordered w)
    {part : Value} (hpart : part ∈ callee :: args) {inner : Span} (hcall : part.HasCallAt inner) :
    span.start < inner.start ∧ inner.stop < span.stop := by
  obtain ⟨opening, closing, rows, rfl, -, -, rfl, hparts, hrows⟩ := h.call_cases
  rw [hparts] at hpart
  obtain ⟨row, hrow, rfl⟩ := List.mem_map.mp hpart
  obtain ⟨s, hs, t, ht, rfl⟩ := (hrows row hrow).exists_merge hcall
  have hs : s ∈ rows.flatMap Prod.fst := List.mem_flatMap_of_mem hrow hs
  have ht : t ∈ rows.flatMap Prod.fst := List.mem_flatMap_of_mem hrow ht
  obtain ⟨hfirst, hrest⟩ := List.pairwise_cons.mp hw.pairwise
  obtain ⟨-, -, hlast⟩ := List.pairwise_append.mp hrest
  have hs' := hfirst s (by simp [hs])
  have ht' := hfirst t (by simp [ht])
  have hs'' := hlast s hs closing (by simp)
  have ht'' := hlast t ht closing (by simp)
  have hopening := hw.start_lt opening (by simp)
  have hclosing := hw.start_lt closing (by simp)
  rw [hw.merge_eq, Span.merge_start, Span.merge_stop]
  simp only
  omega

/-- The calls in a part of a form stand before those in the parts after it. -/
theorem Derives.pairwise_parts (h : Derives w form) (hw : Ordered w) :
    form.parts.Pairwise fun a b => ∀ s t, a.HasCallAt s → b.HasCallAt t → s.stop ≤ t.start := by
  obtain ⟨before, rows, after, rfl, hparts, hrows⟩ := h.exists_rows
  have hwords := (List.pairwise_append.mp (List.pairwise_append.mp hw.pairwise).2.1).1
  rw [hparts, List.pairwise_map]
  refine (List.pairwise_flatMap.mp hwords).2.imp_of_mem fun {a b} ha hb hbefore s t hs ht => ?_
  obtain ⟨s₁, hs₁, s₂, hs₂, rfl⟩ := (hrows a ha).exists_merge hs
  obtain ⟨t₁, ht₁, t₂, ht₂, rfl⟩ := (hrows b hb).exists_merge ht
  have h₁₁ := hbefore s₁ hs₁ t₁ ht₁
  have h₁₂ := hbefore s₁ hs₁ t₂ ht₂
  have h₂₁ := hbefore s₂ hs₂ t₁ ht₁
  have h₂₂ := hbefore s₂ hs₂ t₂ ht₂
  rw [Span.merge_stop, Span.merge_start]
  omega

end Derives

/-! ## The text of a call -/

section Slice

open Text Token

variable {t : Token} {piece : List Char} {source : String} {form callee : Value}
  {args : List Value} {span : Span}

private theorem eq_of_cutFrom_leftParen (h : CutFrom t piece) (ht : t.kind = .leftParen) :
    piece = ['('] := by
  obtain ⟨p, hmatched, htoken⟩ := h
  rw [ht] at htoken
  cases Brackets.spells_of_matches hmatched htoken with
  | opening hopens => cases hopens; rfl
  | closing hopens => cases hopens
  | plain hopens => cases hopens

private theorem eq_of_cutFrom_rightParen (h : CutFrom t piece) (ht : t.kind = .rightParen) :
    piece = [')'] := by
  obtain ⟨p, hmatched, htoken⟩ := h
  rw [ht] at htoken
  cases Brackets.spells_of_matches hmatched htoken with
  | opening hopens => cases hopens
  | closing _ hcloses => cases hcloses; rfl
  | plain _ hcloses => cases hcloses

/-- The text of a call, its tokens and its places belong together. -/
theorem exists_call_slice (h : read source = .ok form)
    (hcall : (Value.call callee args span).OccursIn form) :
    ∃ before inner after word,
      source.toList = before ++ ('(' :: (inner ++ [')'])) ++ after ∧
      span.start = byteLength before ∧
      span.stop = byteLength (before ++ ('(' :: (inner ++ [')']))) ∧
      Derives word (.call callee args span) ∧ Ordered word ∧
      Cut span.start ('(' :: (inner ++ [')'])) word span.stop [] := by
  obtain ⟨tokens, htokens, hderives⟩ := read_eq_ok_iff.mp h
  obtain ⟨stop, hcut⟩ := scan_eq_ok_iff.mp htokens
  obtain ⟨pre, word, post, rfl, hword⟩ := hderives.exists_word hcall
  have hordered : Ordered word := (ordered_of_cut hcut).sublist
    ((List.sublist_append_left word post).trans (List.sublist_append_right pre _))
  obtain ⟨opening, closing, rows, rfl, hopening, hclosing, hspan, -⟩ := hword.call_cases
  rw [hordered.merge_eq] at hspan
  simp only [List.cons_append, List.append_assoc, List.nil_append] at hcut
  obtain ⟨before, piece, inner, piece', after, htext, hstart, hstop, hfirst, hlast, hslice⟩ :=
    hcut.exists_slice
  obtain rfl := eq_of_cutFrom_leftParen hfirst hopening
  obtain rfl := eq_of_cutFrom_rightParen hlast hclosing
  rw [Nat.zero_add] at hstart hstop
  subst hspan
  exact ⟨before, inner, after, _, htext, hstart, hstop, hword, hordered, hslice⟩

/-- The text of a call is read as that call, and the calls in its parts stand
between its brackets; the calls in different parts of a form follow each other
as the parts do. -/
theorem read_call_slice (h : read source = .ok form) :
    (∀ callee args span, (Value.call callee args span).OccursIn form →
      (∃ before inner after,
        source.toList = before ++ ('(' :: (inner ++ [')'])) ++ after ∧
        span.start = byteLength before ∧
        span.stop = byteLength (before ++ ('(' :: (inner ++ [')']))) ∧
        read (String.ofList ('(' :: (inner ++ [')']))) =
          .ok ((Value.call callee args span).mapPlaces (· - span.start))) ∧
      ∀ part ∈ callee :: args, ∀ s, part.HasCallAt s →
        span.start < s.start ∧ s.stop < span.stop) ∧
    ∀ node : Value, node.OccursIn form →
      node.parts.Pairwise fun a b => ∀ s t, a.HasCallAt s → b.HasCallAt t → s.stop ≤ t.start := by
  refine ⟨fun callee args span hcall => ?_, fun node hnode => ?_⟩
  · obtain ⟨before, inner, after, word, htext, hstart, hstop, hword, hordered, hcut⟩ :=
      exists_call_slice h hcall
    refine ⟨⟨before, inner, after, htext, hstart, hstop, ?_⟩,
      fun part hpart s hs => hword.between hordered hpart hs⟩
    have hmoved := hcut.mapPlaces (g := (· - span.start)) fun place n hplace => by omega
    rw [Nat.sub_self] at hmoved
    refine read_eq_ok_iff.mpr ⟨_, ?_, hword.mapPlaces fun a b hab => Nat.sub_le_sub_right hab _⟩
    exact scan_eq_ok_iff.mpr ⟨_, by rw [String.toList_ofList]; exact hmoved⟩
  · obtain ⟨tokens, htokens, hderives⟩ := read_eq_ok_iff.mp h
    obtain ⟨stop, hcut⟩ := scan_eq_ok_iff.mp htokens
    obtain ⟨pre, word, post, rfl, hword⟩ := hderives.exists_word hnode
    exact hword.pairwise_parts ((ordered_of_cut hcut).sublist
      ((List.sublist_append_left word post).trans (List.sublist_append_right pre _)))

/-- The text of the call begins after an accent and has a bracket in a comment. -/
theorem read_call_slice_comment : ∃ form callee args,
    read "[\"é)\" (f ; )\n (g))]" = .ok form ∧ (Value.call callee args ⟨7, 19⟩).OccursIn form ∧
    ∃ before inner after,
      "[\"é)\" (f ; )\n (g))]".toList = before ++ ('(' :: (inner ++ [')'])) ++ after ∧
      byteLength before = 7 ∧ byteLength (before ++ ('(' :: (inner ++ [')']))) = 19 ∧
      read (String.ofList ('(' :: (inner ++ [')']))) =
        .ok (.call (.symbol "f") [.call (.symbol "g") [] ⟨8, 11⟩] ⟨0, 12⟩) := by
  have hread : read "[\"é)\" (f ; )\n (g))]" =
      .ok (.vector [.string "é)",
        .call (.symbol "f") [.call (.symbol "g") [] ⟨15, 18⟩] ⟨7, 19⟩]) := by
    with_unfolding_all rfl
  have hcall := Value.OccursIn.part (v := .vector [.string "é)",
    .call (.symbol "f") [.call (.symbol "g") [] ⟨15, 18⟩] ⟨7, 19⟩])
    (List.mem_cons_of_mem _ (List.mem_singleton_self _)) .self
  obtain ⟨before, inner, after, htext, hstart, hstop, hslice⟩ :=
    ((read_call_slice hread).1 _ _ _ hcall).1
  exact ⟨_, _, _, hread, hcall, before, inner, after, htext, hstart.symm, hstop.symm, hslice⟩

end Slice

end Reader

end LazyLisp
