import LazyLisp.Proofs.Grammar
import LazyLisp.Proofs.Lexing.Words
import LazyLisp.Proofs.Parts
import LazyLisp.Value.Text

/-!
# Reading back what was written

A form without strings and floats is written as it is read: printing it and
reading the text again gives the same form, except that its calls stand
elsewhere.

The text of such a form is made of words, brackets and single blanks, and the
proof follows its structure.  The induction has to say what the lexer makes of
a text with more after it, at any offset, so its hypothesis is about cutting
and deriving and not about the reader (`ReadsBack`).  All it needs to know of
what follows is that no word goes on there.

A symbol is written without quotes or escapes.  It comes back as a symbol
because the reader has taken it from a piece that was no number and no
boolean, which is a property of its name alone.

## Main results

* `Readable.readsBack` — the text of a readable form is cut into tokens that
  derive the form up to spans.
* `Reader.exists_read_text` — a form that was read and has no strings and no
  floats in it is read back from its text.
-/

namespace LazyLisp

namespace Value

/-! ## Forms up to the places of their calls -/

mutual

/-- The form with no places in its calls. -/
def eraseSpans : Value → Value
  | .call callee args _ => .call callee.eraseSpans (eraseAllSpans args) .nowhere
  | .vector items => .vector (eraseAllSpans items)
  | v => v

/-- The forms with no places in their calls. -/
def eraseAllSpans : List Value → List Value
  | [] => []
  | v :: rest => v.eraseSpans :: eraseAllSpans rest

end

private theorem eraseAllSpans_eq_map (items : List Value) :
    eraseAllSpans items = items.map eraseSpans := by
  induction items with
  | nil => rfl
  | cons v rest ih => simp [eraseAllSpans, ih]

mutual

/-- The text of a form does not show where its calls stand. -/
theorem text_eraseSpans : ∀ v : Value, v.eraseSpans.text = v.text
  | .call callee args _ => by
      simp only [eraseSpans, text, text_eraseSpans callee, texts_eraseAllSpans args]
  | .vector items => by
      simp only [eraseSpans, text, texts_eraseAllSpans items]
  | .number _ | .boolean _ | .string _ | .pair _ | .terminal | .nil | .symbol _
  | .closure _ _ _ _ | .template _ _ | .lastCell _ | .lazyCell _ _ _ => rfl

theorem texts_eraseAllSpans : ∀ items : List Value, texts (eraseAllSpans items) = texts items
  | [] => rfl
  | v :: rest => by
      simp only [eraseAllSpans, texts, text_eraseSpans v, texts_eraseAllSpans rest]

end

/-! ## Readable forms -/

/-- The form is written as a word, and that word spells it. -/
structure IsWord (v : Value) (p : Token.Pattern) (kind : Token.Kind) : Prop where
  word : p.isWord = true
  matched : p.regex.Matches v.text.toList
  wins : p = .symbol → ∀ q : Token.Pattern, q.beatsSymbol = true → ¬ q.regex.Matches v.text.toList
  spells : Token.ofPiece p v.text.toList = .ok (some kind)
  atom : Reader.atom? kind = some v

/-- The form is a word, or a vector or a call of such forms. -/
inductive Readable : Value → Prop where
  | word {v : Value} {p : Token.Pattern} {kind : Token.Kind} (h : v.IsWord p kind) : Readable v
  | vector {items : List Value} (hitems : ∀ v ∈ items, Readable v) : Readable (.vector items)
  | call {callee : Value} {args : List Value} (span : Span) (hcallee : Readable callee)
      (hargs : ∀ v ∈ args, Readable v) : Readable (.call callee args span)

private theorem isWord_integer (n : Int64) : (Value.integer n).IsWord .integer (.integer n) where
  word := rfl
  matched := Token.matches_repr n.toInt
  wins h := by cases h
  spells := by
    have hvalue : Token.integerValue (Value.integer n).text.toList = n.toInt :=
      Token.integerValue_repr n.toInt
    simp only [Token.ofPiece, hvalue, Number.ofInt?_toInt]
  atom := rfl

private theorem isWord_boolean (b : Bool) : (Value.boolean b).IsWord (.boolean b) (.boolean b) where
  word := rfl
  matched := by
    refine Token.Regex.matches_word_iff.mpr ?_
    cases b <;> rfl
  wins h := by cases h
  spells := rfl
  atom := rfl

private theorem isWord_symbol {name : String} (h : Token.IsSymbol name.toList) :
    (Value.symbol name).IsWord .symbol (.symbol name) where
  word := rfl
  matched := h.matched
  wins _ := h.wins
  spells := by
    simp only [Token.ofPiece, text, String.ofList_toList]
  atom := rfl

/-- What the reader makes of tokens whose names are symbols is readable, if
there are no strings and no floats in it. -/
theorem readable_of_derives {ts : List Token} {v : Value} (h : Reader.Derives ts v)
    (hnames : ∀ t ∈ ts, ∀ name, t.kind = .symbol name → Token.IsSymbol name.toList)
    (hplain : v.Everywhere fun u => u.kind ≠ .string ∧ u.kind ≠ .float) : Readable v := by
  induction h with
  | @atom t form hatom =>
      cases hkind : t.kind with
      | boolean b =>
          cases (hkind ▸ hatom : Reader.atom? (.boolean b) = some form)
          exact .word (isWord_boolean b)
      | integer n =>
          cases (hkind ▸ hatom : Reader.atom? (.integer n) = some form)
          exact .word (isWord_integer n)
      | symbol name =>
          cases (hkind ▸ hatom : Reader.atom? (.symbol name) = some form)
          exact .word (isWord_symbol (hnames t (by simp) name hkind))
      | float x =>
          cases (hkind ▸ hatom : Reader.atom? (.float x) = some form)
          exact absurd rfl hplain.here.2
      | string s =>
          cases (hkind ▸ hatom : Reader.atom? (.string s) = some form)
          exact absurd rfl hplain.here.1
      | leftParen | rightParen | leftBracket | rightBracket =>
          rw [hkind] at hatom
          cases hatom
  | @call opening closing w callee rows _ _ _ _ ihcallee ihrows =>
      refine .call _ (ihcallee (fun t ht => hnames t (by simp [ht])) ?_) ?_
      · exact hplain.inside (by simp [parts])
      · intro v hv
        obtain ⟨row, hrow, rfl⟩ := List.mem_map.mp hv
        have hwords : ∀ t ∈ row.1, t ∈ rows.flatMap Prod.fst :=
          fun t ht => List.mem_flatMap_of_mem hrow ht
        exact ihrows row hrow (fun t ht => hnames t (by simp [hwords t ht]))
          (hplain.inside (by simp [parts, hv]))
  | @vector opening closing rows _ _ _ ihrows =>
      refine .vector fun v hv => ?_
      obtain ⟨row, hrow, rfl⟩ := List.mem_map.mp hv
      have hwords : ∀ t ∈ row.1, t ∈ rows.flatMap Prod.fst :=
        fun t ht => List.mem_flatMap_of_mem hrow ht
      exact ihrows row hrow (fun t ht => hnames t (by simp [hwords t ht])) (hplain.inside hv)

/-! ## Reading forms back -/

/-- Cutting the form's text, wherever it stands and whatever follows it, gives
tokens that derive the form up to spans. -/
def ReadsBack (v : Value) : Prop :=
  ∀ offset rest, Token.EndsWord rest → ∃ ts stop form,
    Token.Cut offset (v.text.toList ++ rest) ts stop rest ∧ Reader.Derives ts form ∧
      form.eraseSpans = v.eraseSpans

/-- A form that is written as a word reads back. -/
theorem IsWord.readsBack {v : Value} {p : Token.Pattern} {kind : Token.Kind}
    (h : v.IsWord p kind) : v.ReadsBack := by
  intro offset rest hrest
  have hpiece := Token.munches_word h.word h.matched h.wins hrest
  exact ⟨_, _, v, .token hpiece h.spells (.done _ _), .atom h.atom, rfl⟩

/-! ### The texts of rows and brackets -/

theorem toList_text_vector (items : List Value) :
    (Value.vector items).text.toList = ['['] ++ ((spaced (texts items)).toList ++ [']']) := by
  simp only [text, String.toList_append, List.append_assoc]
  rfl

theorem toList_text_call (callee : Value) (args : List Value) (span : Span) :
    (Value.call callee args span).text.toList =
      ['('] ++ ((spaced (texts (callee :: args))).toList ++ [')']) := by
  simp only [text, texts, String.toList_append, List.append_assoc]
  rfl

theorem toList_spaced_singleton (word : String) : (spaced [word]).toList = word.toList := by
  simp [spaced]

theorem toList_spaced_cons (word next : String) (more : List String) :
    (spaced (word :: next :: more)).toList =
      word.toList ++ ([' '] ++ (spaced (next :: more)).toList) := by
  simp [spaced, String.toList_intercalate]

/-- The text of a readable form begins, and not with a blank. -/
theorem Readable.begins {v : Value} (h : v.Readable) :
    ∃ c rest, v.text.toList = c :: rest ∧ Token.isSeparator c = false := by
  cases h with
  | word h =>
      obtain ⟨c, rest, htext, -⟩ := Token.Pattern.opens_of_matches h.matched
      have hc := Token.continuesSymbol_of_matches h.word h.matched c (by simp [htext])
      exact ⟨c, rest, htext, Token.isSeparator_of_continuesSymbol hc⟩
  | vector hitems => exact ⟨'[', _, toList_text_vector _, by decide⟩
  | call span hcallee hargs => exact ⟨'(', _, toList_text_call _ _ span, by decide⟩

private theorem Readable.row_begins {v : Value} (h : v.Readable) (more : List Value)
    (rest : List Char) :
    ∀ c ∈ ((spaced (texts (v :: more))).toList ++ rest).head?, Token.isSeparator c = false := by
  obtain ⟨c, tail, htext, hc⟩ := h.begins
  cases more with
  | nil => simpa [texts, toList_spaced_singleton, htext] using hc
  | cons u others => simpa [texts, toList_spaced_cons, htext] using hc

/-- The texts of forms, with single blanks between them, are cut into words
that derive the forms one after the other. -/
theorem exists_rows {items : List Value} (hitems : ∀ v ∈ items, v.Readable)
    (hback : ∀ v ∈ items, v.ReadsBack) (offset : Nat) {rest : List Char}
    (hrest : Token.EndsWord rest) : ∃ (rows : List (List Token × Value)) (stop : Nat),
      Token.Cut offset ((spaced (texts items)).toList ++ rest) (rows.flatMap Prod.fst) stop rest ∧
        (∀ row ∈ rows, Reader.Derives row.1 row.2) ∧
          (rows.map Prod.snd).map eraseSpans = items.map eraseSpans := by
  induction items generalizing offset with
  | nil => exact ⟨[], offset, .done _ _, by simp, rfl⟩
  | cons v more ih =>
      obtain ⟨hv, hmore⟩ := List.forall_mem_cons.mp hback
      obtain ⟨-, hreadable⟩ := List.forall_mem_cons.mp hitems
      cases more with
      | nil =>
          obtain ⟨ts, stop, form, hcut, hderives, herase⟩ := hv offset rest hrest
          refine ⟨[(ts, form)], stop, ?_, by simpa using hderives, by simp [herase]⟩
          rw [texts, texts, toList_spaced_singleton]
          simpa using hcut
      | cons u others =>
          have hblank : Token.EndsWord ([' '] ++ ((spaced (texts (u :: others))).toList ++ rest)) :=
            .cons (by decide) _
          obtain ⟨ts, mid, form, hcut, hderives, herase⟩ := hv offset _ hblank
          obtain ⟨rows, stop, hrows, hwords, herases⟩ :=
            ih hreadable hmore (mid + Text.byteLength [' '])
          have hmunches := Token.munches_separators (List.cons_ne_nil ' ' [])
            (List.forall_mem_singleton.mpr (by decide))
            ((hreadable u (by simp)).row_begins others rest)
          refine ⟨(ts, form) :: rows, stop, ?_, List.forall_mem_cons.mpr ⟨hderives, hwords⟩, ?_⟩
          · have hspaced : (spaced (texts (v :: u :: others))).toList ++ rest =
                v.text.toList ++ ([' '] ++ ((spaced (texts (u :: others))).toList ++ rest)) := by
              simp [texts, toList_spaced_cons]
            rw [hspaced, List.flatMap_cons]
            exact hcut.trans (.skip hmunches rfl hrows)
          · rw [List.map_cons, List.map_cons, List.map_cons, herase, herases]

/-! ### Brackets around rows -/

/-- A bracket becomes a token of its own. -/
theorem exists_bracket {p : Token.Pattern} {c : Char} {kind : Token.Kind}
    (h : Token.IsBracket p c kind) (offset : Nat) (rest : List Char) :
    ∃ t stop, t.kind = kind ∧ Token.Cut offset ([c] ++ rest) [t] stop rest :=
  ⟨_, _, rfl, .token (Token.munches_bracket h rest) h.spells (.done _ _)⟩

private theorem exists_bracketed {p q : Token.Pattern} {c d : Char} {k l : Token.Kind}
    (hopen : Token.IsBracket p c k) (hclose : Token.IsBracket q d l) {items : List Value}
    (hitems : ∀ v ∈ items, v.Readable) (hback : ∀ v ∈ items, v.ReadsBack) (offset : Nat)
    (rest : List Char) : ∃ (opening closing : Token) (rows : List (List Token × Value))
      (stop : Nat), opening.kind = k ∧ closing.kind = l ∧
        Token.Cut offset ([c] ++ ((spaced (texts items)).toList ++ ([d] ++ rest)))
          (opening :: (rows.flatMap Prod.fst ++ [closing])) stop rest ∧
        (∀ row ∈ rows, Reader.Derives row.1 row.2) ∧
          (rows.map Prod.snd).map eraseSpans = items.map eraseSpans := by
  obtain ⟨opening, start, hk, hopening⟩ :=
    exists_bracket hopen offset ((spaced (texts items)).toList ++ ([d] ++ rest))
  have hends : Token.EndsWord ([d] ++ rest) := .cons hclose.endsWord _
  obtain ⟨rows, mid, hrows, hwords, herases⟩ := exists_rows hitems hback start hends
  obtain ⟨closing, stop, hl, hclosing⟩ := exists_bracket hclose mid rest
  exact ⟨opening, closing, rows, stop, hk, hl, hopening.trans (hrows.trans hclosing), hwords,
    herases⟩

/-- The text of a readable form is cut into tokens that derive the form up to
spans. -/
theorem Readable.readsBack {v : Value} (h : v.Readable) : v.ReadsBack := by
  induction h with
  | word h => exact h.readsBack
  | @vector items hitems ih =>
      intro offset rest _
      obtain ⟨opening, closing, rows, stop, hopening, hclosing, hcut, hrows, herases⟩ :=
        exists_bracketed Token.isBracket_leftBracket Token.isBracket_rightBracket hitems ih
          offset rest
      refine ⟨_, stop, _, ?_, .vector hopening hrows hclosing, ?_⟩
      · simpa [toList_text_vector] using hcut
      · rw [eraseSpans, eraseSpans, eraseAllSpans_eq_map, eraseAllSpans_eq_map, herases]
  | @call callee args span hcallee hargs ihcallee ihargs =>
      intro offset rest _
      -- the callee and the arguments are one row, of which the callee is the first form
      obtain ⟨opening, closing, rows, stop, hopening, hclosing, hcut, hrows, herases⟩ :=
        exists_bracketed Token.isBracket_leftParen Token.isBracket_rightParen
          (List.forall_mem_cons.mpr ⟨hcallee, hargs⟩)
          (List.forall_mem_cons.mpr ⟨ihcallee, ihargs⟩) offset rest
      cases rows with
      | nil => cases herases
      | cons row more =>
          obtain ⟨hrow, hmore⟩ := List.forall_mem_cons.mp hrows
          simp only [List.map_cons, List.cons.injEq] at herases
          obtain ⟨herase, herases⟩ := herases
          refine ⟨_, stop, _, ?_, .call hopening hrow hmore hclosing, ?_⟩
          · simpa [toList_text_call] using hcut
          · rw [eraseSpans, eraseSpans, eraseAllSpans_eq_map, eraseAllSpans_eq_map, herase,
              herases]

end Value

namespace Reader

/-- A readable form is read back from its text. -/
theorem read_text_of_readable {v : Value} (h : v.Readable) :
    ∃ form, read v.text = .ok form ∧ form.eraseSpans = v.eraseSpans := by
  obtain ⟨ts, stop, form, hcut, hderives, herase⟩ := h.readsBack 0 [] .nil
  rw [List.append_nil] at hcut
  have htokens : Token.tokenize v.text = .ok ts := hcut.scan_end
  exact ⟨form, read_eq_ok_iff.mpr ⟨ts, htokens, hderives⟩, herase⟩

/-- A form that was read and holds no strings and no floats is read back from
its text, up to the places of its calls, and is then written in the same
way. -/
theorem exists_read_text {source : String} {v : Value} (hread : read source = .ok v)
    (hplain : v.Everywhere fun u => u.kind ≠ .string ∧ u.kind ≠ .float) :
    ∃ v', read v.text = .ok v' ∧ v'.eraseSpans = v.eraseSpans ∧ v'.text = v.text := by
  obtain ⟨ts, htokens, hderives⟩ := read_eq_ok_iff.mp hread
  obtain ⟨stop, hcut⟩ := Token.scan_eq_ok_iff.mp htokens
  have hreadable := Value.readable_of_derives hderives hcut.isSymbol hplain
  obtain ⟨v', hread', herase⟩ := read_text_of_readable hreadable
  have htext : v'.text = v.text := by
    rw [← v'.text_eraseSpans, herase, v.text_eraseSpans]
  exact ⟨v', hread', herase, htext⟩

/-- A symbol that only looks like a number, and the least integer. -/
theorem exists_read_text_nested : ∃ v, read "( - [true --5]-9223372036854775808)" = .ok v ∧
    (v.Everywhere fun u => u.kind ≠ .string ∧ u.kind ≠ .float) ∧
      ∃ v', read v.text = .ok v' ∧ v'.eraseSpans = v.eraseSpans ∧ v'.text = v.text := by
  have hread : read "( - [true --5]-9223372036854775808)" =
      .ok (.call (.symbol "-") [.vector [.boolean true, .symbol "--5"],
        .integer Int64.minValue] ⟨0, 35⟩) := by
    with_unfolding_all rfl
  have hplain : (Value.call (.symbol "-") [.vector [.boolean true, .symbol "--5"],
      .integer Int64.minValue] ⟨0, 35⟩).Everywhere fun u => u.kind ≠ .string ∧ u.kind ≠ .float := by
    refine .intro (by decide) (List.forall_mem_cons.mpr ⟨.of_parts_eq_nil rfl (by decide), ?_⟩)
    refine List.forall_mem_cons.mpr ⟨.intro (by decide) ?_, ?_⟩
    · refine List.forall_mem_cons.mpr ⟨.of_parts_eq_nil rfl (by decide), ?_⟩
      exact List.forall_mem_singleton.mpr (.of_parts_eq_nil rfl (by decide))
    · exact List.forall_mem_singleton.mpr (.of_parts_eq_nil rfl (by decide))
  exact ⟨_, hread, hplain, exists_read_text hread hplain⟩

end Reader

end LazyLisp
