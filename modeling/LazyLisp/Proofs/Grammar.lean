import LazyLisp.Reader

/-!
# The grammar of forms

A form is an atom, a call `( E E* )` or a vector `[ E* ]`.  `Derives` is this
grammar, as a relation between a word of tokens and the form that it spells;
it knows neither a stack nor what follows the word.

The reader does keep a stack.  What the brackets on it have consumed is a word
with holes, and each token either opens a bracket or completes a form, which
fills the next place in the innermost bracket.  So every run of the reader has
a derivation behind it.  In the other direction a derivable word takes the
reader from any stack to the same stack with the form in its place.  As the
reader is a function, the grammar is unambiguous, and this even among words of
different lengths.

## Main results

* `Consumed.derives` — a form that was read is derived by the tokens taken.
* `Derives.readUnder_eq` — a derivable word is read under any open brackets.
* `next_iff_derives` — the reader accepts the grammar, all of it and nothing
  else, and there is only one way to derive the beginning of a text.
-/

namespace LazyLisp.Reader

/-- The tokens spell the form.  The words of a row of forms come with their
forms, in order. -/
inductive Derives : List Token → Value → Prop where
  | atom {t : Token} {form : Value} (hatom : atom? t.kind = some form) : Derives [t] form
  | call {opening closing : Token} {w : List Token} {callee : Value}
      {rows : List (List Token × Value)}
      (hopening : opening.kind = .leftParen) (hcallee : Derives w callee)
      (hrows : ∀ row ∈ rows, Derives row.1 row.2) (hclosing : closing.kind = .rightParen) :
      Derives (opening :: (w ++ (rows.flatMap Prod.fst ++ [closing])))
        (.call callee (rows.map Prod.snd) (opening.span.merge closing.span))
  | vector {opening closing : Token} {rows : List (List Token × Value)}
      (hopening : opening.kind = .leftBracket)
      (hrows : ∀ row ∈ rows, Derives row.1 row.2) (hclosing : closing.kind = .rightBracket) :
      Derives (opening :: (rows.flatMap Prod.fst ++ [closing])) (.vector (rows.map Prod.snd))

/-! ## What a token does -/

section Move

variable {stack around : List Open} {bracket : Open} {t : Token} {form : Value}

private theorem move_atom (h : atom? t.kind = some form) (stack : List Open) :
    move stack t = .complete form stack := by
  unfold move
  split <;> simp_all [atom?]

theorem move_leftParen (h : t.kind = .leftParen) (stack : List Open) :
    move stack t = .enter (.callee t.span) := by
  simp [move, h]

theorem move_leftBracket (h : t.kind = .leftBracket) (stack : List Open) :
    move stack t = .enter (.items []) := by
  simp [move, h]

theorem move_rightParen (h : t.kind = .rightParen) (start : Span) (callee : Value)
    (read : List Value) (around : List Open) :
    move (.args start callee read :: around) t =
      .complete (.call callee read.reverse (start.merge t.span)) around := by
  simp [move, h]

theorem move_rightBracket (h : t.kind = .rightBracket) (read : List Value)
    (around : List Open) :
    move (.items read :: around) t = .complete (.vector read.reverse) around := by
  simp [move, h]

/-- Only the two opening brackets open one. -/
theorem move_enter_cases (h : move stack t = .enter bracket) :
    t.kind = .leftParen ∧ bracket = .callee t.span ∨
      t.kind = .leftBracket ∧ bracket = .items [] := by
  unfold move at h
  split at h
  · rename_i hkind
    cases h
    exact .inl ⟨hkind, rfl⟩
  · rename_i hkind
    cases h
    exact .inr ⟨hkind, rfl⟩
  all_goals try cases h
  split at h <;> cases h

/-- A form is completed by an atom, or by the closing bracket of the innermost
call or vector. -/
theorem move_complete_cases (h : move stack t = .complete form around) :
    atom? t.kind = some form ∧ around = stack ∨
      (∃ start callee read, t.kind = .rightParen ∧ stack = .args start callee read :: around ∧
        form = .call callee read.reverse (start.merge t.span)) ∨
      ∃ read, t.kind = .rightBracket ∧ stack = .items read :: around ∧
        form = .vector read.reverse := by
  unfold move at h
  split at h
  · cases h
  · cases h
  · rename_i start callee read rest hkind
    cases h
    exact .inr (.inl ⟨start, callee, read, hkind, rfl, rfl⟩)
  · cases h
  · rename_i read rest hkind
    cases h
    exact .inr (.inr ⟨read, hkind, rfl, rfl⟩)
  · split at h
    · rename_i form' hatom
      cases h
      exact .inl ⟨hatom, rfl⟩
    · cases h

/-- Goes on with a form that is complete under the brackets around it. -/
def resume : List Open → Value → List Token → Except Error (Value × List Token)
  | [], form, rest => .ok (form, rest)
  | innermost :: around, form, rest => readUnder (innermost.push form :: around) rest

private theorem readUnder_complete (h : move stack t = .complete form around) (rest : List Token) :
    readUnder stack (t :: rest) = resume around form rest := by
  rw [readUnder, h]
  cases around <;> rfl

theorem readUnder_enter (h : move stack t = .enter bracket) (rest : List Token) :
    readUnder stack (t :: rest) = readUnder (bracket :: stack) rest := by
  rw [readUnder, h]

end Move

/-! ## Every form that is read is derived -/

/-- The tokens that the open brackets have consumed. -/
inductive Consumed : List Open → List Token → Prop where
  | none : Consumed [] []
  | callee {around : List Open} {u : List Token} {opening : Token}
      (haround : Consumed around u) (hopening : opening.kind = .leftParen) :
      Consumed (.callee opening.span :: around) (u ++ [opening])
  | args {around : List Open} {u w : List Token} {opening : Token} {callee : Value}
      {rows : List (List Token × Value)} {read : List Value}
      (haround : Consumed around u) (hopening : opening.kind = .leftParen)
      (hcallee : Derives w callee) (hrows : ∀ row ∈ rows, Derives row.1 row.2)
      (hread : read.reverse = rows.map Prod.snd) :
      Consumed (.args opening.span callee read :: around)
        (u ++ opening :: (w ++ rows.flatMap Prod.fst))
  | items {around : List Open} {u : List Token} {opening : Token}
      {rows : List (List Token × Value)} {read : List Value}
      (haround : Consumed around u) (hopening : opening.kind = .leftBracket)
      (hrows : ∀ row ∈ rows, Derives row.1 row.2) (hread : read.reverse = rows.map Prod.snd) :
      Consumed (.items read :: around) (u ++ opening :: rows.flatMap Prod.fst)

section Consumed

variable {stack around : List Open} {innermost bracket : Open} {u w : List Token} {t : Token}
  {form : Value}

theorem derives_of_mem_nil : ∀ row ∈ ([] : List (List Token × Value)), Derives row.1 row.2 :=
  List.forall_mem_nil _

private theorem derives_of_mem_append {rows : List (List Token × Value)}
    (hrows : ∀ row ∈ rows, Derives row.1 row.2) (hform : Derives w form) :
    ∀ row ∈ rows ++ [(w, form)], Derives row.1 row.2 :=
  List.forall_mem_append.mpr ⟨hrows, List.forall_mem_singleton.mpr hform⟩

/-- A token that enters a bracket is consumed by opening it. -/
theorem Consumed.enter (h : Consumed stack u) (hmove : move stack t = .enter bracket) :
    Consumed (bracket :: stack) (u ++ [t]) := by
  rcases move_enter_cases hmove with ⟨hkind, rfl⟩ | ⟨hkind, rfl⟩
  · exact .callee h hkind
  · exact .items h hkind derives_of_mem_nil rfl

/-- A form fills the next place in the innermost bracket. -/
theorem Consumed.push (h : Consumed (innermost :: around) u) (hform : Derives w form) :
    Consumed (innermost.push form :: around) (u ++ w) := by
  cases h with
  | callee haround hopening =>
      have hread : ([] : List Value).reverse = ([] : List (List Token × Value)).map Prod.snd := rfl
      simpa [Open.push] using Consumed.args haround hopening hform derives_of_mem_nil hread
  | @args _ _ _ _ _ rows read haround hopening hcallee hrows hread =>
      have hmore : (form :: read).reverse = (rows ++ [(w, form)]).map Prod.snd := by simp [hread]
      simpa [Open.push] using
        Consumed.args haround hopening hcallee (derives_of_mem_append hrows hform) hmore
  | @items _ _ _ rows read haround hopening hrows hread =>
      have hmore : (form :: read).reverse = (rows ++ [(w, form)]).map Prod.snd := by simp [hread]
      simpa [Open.push] using
        Consumed.items haround hopening (derives_of_mem_append hrows hform) hmore

/-- The token that completes a form ends a word that derives it. -/
theorem Consumed.complete (h : Consumed stack u) (hmove : move stack t = .complete form around) :
    ∃ v w, Consumed around v ∧ Derives w form ∧ u ++ [t] = v ++ w := by
  rcases move_complete_cases hmove with ⟨hatom, rfl⟩ | ⟨start, callee, read, hkind, rfl, rfl⟩ |
    ⟨read, hkind, rfl, rfl⟩
  · exact ⟨u, [t], h, .atom hatom, rfl⟩
  · cases h with
    | args haround hopening hcallee hrows hread =>
        rw [hread]
        exact ⟨_, _, haround, .call hopening hcallee hrows hkind, by simp⟩
  · cases h with
    | items haround hopening hrows hread =>
        rw [hread]
        exact ⟨_, _, haround, .vector hopening hrows hkind, by simp⟩

/-- A form that was read is derived by the tokens taken. -/
theorem Consumed.derives {tokens rest : List Token} (h : Consumed stack u)
    (hread : readUnder stack tokens = .ok (form, rest)) :
    ∃ w, tokens = w ++ rest ∧ Derives (u ++ w) form := by
  -- along the run; what the stack has consumed grows by the token that is read
  fun_induction readUnder stack tokens generalizing u with
  | case1 | case2 | case6 => cases hread
  | case3 stack t tail bracket hmove ih =>
      obtain ⟨w, rfl, hderives⟩ := ih (h.enter hmove) hread
      exact ⟨t :: w, rfl, by simpa using hderives⟩
  | case4 stack t tail form' hmove =>
      cases hread
      obtain ⟨v, w, hconsumed, hderives, hword⟩ := h.complete hmove
      cases hconsumed
      exact ⟨[t], rfl, by simpa [hword] using hderives⟩
  | case5 stack t tail form' innermost around hmove ih =>
      obtain ⟨v, w, hconsumed, hderives, hword⟩ := h.complete hmove
      obtain ⟨w', rfl, hrest⟩ := ih (hconsumed.push hderives) hread
      refine ⟨t :: w', rfl, ?_⟩
      rw [← hword] at hrest
      simpa using hrest

end Consumed

/-! ## Every word that derives a form is read -/

/-- The bracket with a row of forms in it. -/
def Open.pushAll (bracket : Open) (forms : List Value) : Open :=
  forms.foldl (fun b form => b.push form) bracket

theorem Open.pushAll_args (start : Span) (callee : Value) (read forms : List Value) :
    (Open.args start callee read).pushAll forms = .args start callee (forms.reverse ++ read) := by
  induction forms generalizing read with
  | nil => rfl
  | cons form rest ih => simpa [Open.pushAll, Open.push] using ih (form :: read)

theorem Open.pushAll_items (read forms : List Value) :
    (Open.items read).pushAll forms = .items (forms.reverse ++ read) := by
  induction forms generalizing read with
  | nil => rfl
  | cons form rest ih => simpa [Open.pushAll, Open.push] using ih (form :: read)

/-- Words that are each read as a form are read as a row of forms. -/
theorem readUnder_rows {rows : List (List Token × Value)}
    (h : ∀ row ∈ rows, ∀ stack rest, readUnder stack (row.1 ++ rest) = resume stack row.2 rest)
    (bracket : Open) (around : List Open) (rest : List Token) :
    readUnder (bracket :: around) (rows.flatMap Prod.fst ++ rest) =
      readUnder (bracket.pushAll (rows.map Prod.snd) :: around) rest := by
  induction rows generalizing bracket with
  | nil => rfl
  | cons row more ih =>
      obtain ⟨hrow, hmore⟩ := List.forall_mem_cons.mp h
      rw [List.flatMap_cons, List.append_assoc, hrow, resume, ih hmore]
      rfl

/-- A derivable word is read under any open brackets, whatever follows it. -/
theorem Derives.readUnder_eq {w : List Token} {form : Value} (h : Derives w form)
    (stack : List Open) (rest : List Token) :
    readUnder stack (w ++ rest) = resume stack form rest := by
  induction h generalizing stack rest with
  | atom hatom => exact readUnder_complete (move_atom hatom stack) rest
  | call hopening _ _ hclosing ihcallee ihrows =>
      rw [List.cons_append, readUnder_enter (move_leftParen hopening stack), List.append_assoc,
        ihcallee, resume, List.append_assoc, readUnder_rows ihrows, Open.push,
        Open.pushAll_args, List.append_nil, List.singleton_append,
        readUnder_complete (move_rightParen hclosing _ _ _ _), List.reverse_reverse]
  | vector hopening _ hclosing ihrows =>
      rw [List.cons_append, readUnder_enter (move_leftBracket hopening stack), List.append_assoc,
        readUnder_rows ihrows, Open.pushAll_items, List.append_nil, List.singleton_append,
        readUnder_complete (move_rightBracket hclosing _ _), List.reverse_reverse]

/-- A word of the grammar is read as its form, and what is behind it is left. -/
theorem Derives.next_eq {w : List Token} {form : Value} (h : Derives w form)
    (rest : List Token) : next (w ++ rest) = .ok (form, rest) :=
  h.readUnder_eq [] rest

/-! ## The reader and the grammar -/

/-- What is read is a word of the grammar, followed by what is left. -/
theorem exists_derives_of_next {tokens rest : List Token} {form : Value}
    (h : next tokens = .ok (form, rest)) : ∃ w, Derives w form ∧ tokens = w ++ rest := by
  obtain ⟨w, htokens, hderives⟩ := Consumed.none.derives h
  exact ⟨w, hderives, htokens⟩

/-- A text is a program if and only if its tokens are one word of the grammar. -/
theorem readAll_eq_ok_iff {tokens : List Token} {form : Value} :
    readAll tokens = .ok form ↔ Derives tokens form := by
  constructor
  · intro h
    unfold readAll at h
    split at h
    · cases h
    · rename_i hnext
      cases h
      obtain ⟨w, hderives, rfl⟩ := exists_derives_of_next hnext
      rwa [List.append_nil]
    · cases h
  · intro h
    have hnext := h.next_eq []
    rw [List.append_nil] at hnext
    simp only [readAll, hnext]

/-- A text is read as the form that its tokens derive. -/
theorem read_eq_ok_iff {source : String} {form : Value} :
    read source = .ok form ↔
      ∃ tokens, Token.tokenize source = .ok tokens ∧ Derives tokens form := by
  unfold read
  split
  · rename_i heq
    simp [heq]
  · rename_i tokens heq
    rw [readAll_eq_ok_iff]
    simp [heq]

/-- Words that derive forms are read one after the other, up to the end of the
tokens. -/
theorem forms_rows {rows : List (List Token × Value)}
    (h : ∀ row ∈ rows, Derives row.1 row.2) :
    forms (rows.flatMap Prod.fst) = (rows.map Prod.snd, .unexpectedEnd .expression) := by
  induction rows with
  | nil => exact forms_nil
  | cons row more ih =>
      obtain ⟨hrow, hmore⟩ := List.forall_mem_cons.mp h
      have hnext := hrow.next_eq (more.flatMap Prod.fst)
      rw [List.flatMap_cons, forms]
      split
      · rename_i heq
        cases hnext.symm.trans heq
      · rename_i heq
        cases hnext.symm.trans heq
        simp [ih hmore]

/-- The reader accepts the grammar.  It reads a form and leaves a rest exactly
if a word in front of that rest derives the form, and there is one such word at
most.  A text is read as a whole if it is derivable as a whole, and a row of
derivable words gives their forms, one after the other, until the tokens are
used up. -/
theorem next_iff_derives (tokens : List Token) :
    (∀ form rest, next tokens = .ok (form, rest) ↔
      ∃ w, Derives w form ∧ tokens = w ++ rest) ∧
    (∀ w w' form form' rest rest', Derives w form → tokens = w ++ rest →
      Derives w' form' → tokens = w' ++ rest' → w = w' ∧ form = form' ∧ rest = rest') ∧
    (∀ form, readAll tokens = .ok form ↔ Derives tokens form) ∧
    ∀ rows : List (List Token × Value), (∀ row ∈ rows, Derives row.1 row.2) →
      tokens = rows.flatMap Prod.fst →
        forms tokens = (rows.map Prod.snd, .unexpectedEnd .expression) := by
  refine ⟨fun form rest => ⟨exists_derives_of_next, ?_⟩, ?_, fun form => readAll_eq_ok_iff, ?_⟩
  · rintro ⟨w, hderives, rfl⟩
    exact hderives.next_eq rest
  · rintro w w' form form' rest rest' hderives htokens hderives' htokens'
    have hnext := hderives.next_eq rest
    have hnext' := hderives'.next_eq rest'
    rw [← htokens] at hnext
    rw [← htokens'] at hnext'
    cases hnext.symm.trans hnext'
    exact ⟨List.append_cancel_right (htokens.symm.trans htokens'), rfl, rfl⟩
  · rintro rows hrows rfl
    exact forms_rows hrows

end LazyLisp.Reader
