import LazyLisp.Proofs.Brackets.Tokens

/-!
# Where the reader gives up

Tokens that derive no form are wrong in one of two ways.  They stop too early,
and with more tokens behind them they would derive a form; or they have a token
that no form has at that place, whatever follows.  The reader tells the two
apart, and in the second case it names the first such token.

The reason is that its stack of open brackets is never a dead end.  Under any
stack a form can come next, and then the closing bracket of the innermost call or
vector, so that one bracket after the other can be closed.  And a token that is
refused under the stack cannot stand there in any derivation, since a derivation
would take the reader over it.

What is missing where tokens stop too early can be said without a stack of
forms: after an opening parenthesis a callee, otherwise what closes the innermost
bracket that is open among the tokens.

## Main results

* `Consumed.viable` — what the reader has consumed can be completed.
* `Consumed.readUnder_eq` — the reader is where its stack says that it is.
* `readAll_error_iff` — the tokens end too early if they can be completed, and
  otherwise the first token is refused after which they cannot.
-/

namespace LazyLisp.Reader

/-! ## Words that can be completed -/

/-- The tokens are the beginning of a word that derives a form, or all of it. -/
def Viable (tokens : List Token) : Prop :=
  ∃ more form, Derives (tokens ++ more) form

/-- Up to this place the tokens can be completed, and with the token there they
cannot. -/
structure FirstImpossible (tokens : List Token) (k : Nat) : Prop where
  viable : Viable (tokens.take k)
  impossible : ¬ Viable (tokens.take (k + 1))

section Viable

variable {tokens u v : List Token} {j k : Nat}

theorem Viable.of_append (h : Viable (u ++ v)) : Viable u := by
  obtain ⟨more, form, hderives⟩ := h
  exact ⟨v ++ more, form, by rwa [← List.append_assoc]⟩

theorem Viable.take (h : Viable tokens) (k : Nat) : Viable (tokens.take k) := by
  rw [← List.take_append_drop k tokens] at h
  exact h.of_append

private theorem FirstImpossible.le (h : FirstImpossible tokens j) (h' : FirstImpossible tokens k) :
    k ≤ j := by
  refine Nat.le_of_not_lt fun hlt => h.impossible ?_
  have hlonger := h'.viable.take (j + 1)
  rwa [List.take_take, Nat.min_eq_left hlt] at hlonger

/-- There is at most one such place. -/
theorem FirstImpossible.unique (h : FirstImpossible tokens j) (h' : FirstImpossible tokens k) :
    j = k :=
  Nat.le_antisymm (h'.le h) (h.le h')

end Viable

/-! ## The stack is no dead end -/

section Completion

variable {stack around : List Open} {u w : List Token} {t : Token} {form : Value}
  {expected : Expected}

/-- After a form the innermost bracket can be closed. -/
theorem exists_closing (bracket : Open) (form : Value) (around : List Open) :
    ∃ t form', move (bracket.push form :: around) t = .complete form' around := by
  cases bracket with
  | callee start => exact ⟨⟨.rightParen, .nowhere⟩, _, move_rightParen rfl start form [] around⟩
  | args start callee read =>
      exact ⟨⟨.rightParen, .nowhere⟩, _, move_rightParen rfl start callee (form :: read) around⟩
  | items read => exact ⟨⟨.rightBracket, .nowhere⟩, _, move_rightBracket rfl (form :: read) around⟩

/-- After a form all brackets can be closed, one after the other. -/
theorem Consumed.viable_append (h : Consumed stack u) (hform : Derives w form) :
    Viable (u ++ w) := by
  induction stack generalizing u w form with
  | nil =>
      cases h
      exact ⟨[], form, by rwa [List.nil_append, List.append_nil]⟩
  | cons innermost around ih =>
      obtain ⟨t, form', hmove⟩ := exists_closing innermost form around
      obtain ⟨v, w', haround, hform', hword⟩ := (h.push hform).complete hmove
      have hclosed := ih haround hform'
      rw [← hword] at hclosed
      exact hclosed.of_append

/-- What the reader has consumed can be completed. -/
theorem Consumed.viable (h : Consumed stack u) : Viable u :=
  (h.viable_append (Derives.atom (t := ⟨.boolean true, .nowhere⟩) rfl)).of_append

/-- The reader goes over what the stack has consumed and is left with the
stack. -/
theorem Consumed.readUnder_eq (h : Consumed stack u) (rest : List Token) :
    readUnder [] (u ++ rest) = readUnder stack rest := by
  induction h generalizing rest with
  | none => rfl
  | callee _ hopening ih =>
      rw [List.append_assoc, ih, List.singleton_append,
        readUnder_enter (move_leftParen hopening _)]
  | args _ hopening hcallee hrows hread ih =>
      have hforms := List.reverse_eq_iff.mp hread
      rw [List.append_assoc, ih, List.cons_append, readUnder_enter (move_leftParen hopening _),
        List.append_assoc, hcallee.readUnder_eq, resume,
        readUnder_rows fun row hrow => (hrows row hrow).readUnder_eq, Open.push,
        Open.pushAll_args, List.append_nil, hforms]
  | items _ hopening hrows hread ih =>
      have hforms := List.reverse_eq_iff.mp hread
      rw [List.append_assoc, ih, List.cons_append, readUnder_enter (move_leftBracket hopening _),
        readUnder_rows fun row hrow => (hrows row hrow).readUnder_eq, Open.pushAll_items,
        List.append_nil, hforms]

/-- A token that is refused cannot be part of a derivation. -/
theorem Consumed.not_viable (h : Consumed stack u) (hmove : move stack t = .refuse expected) :
    ¬ Viable (u ++ [t]) := by
  rintro ⟨more, form, hderives⟩
  have hread := hderives.next_eq []
  rw [List.append_nil, next, List.append_assoc, h.readUnder_eq, List.singleton_append, readUnder,
    hmove] at hread
  cases hread

end Completion

/-! ## What is missing -/

/-- The tokens end right after an opening parenthesis. -/
def EndsOpen (tokens : List Token) : Prop :=
  ∃ before t, tokens = before ++ [t] ∧ t.kind = .leftParen

/-- The wording of the token that closes a bracket. -/
def closingText : Brackets.Shape → String
  | .round => "')'"
  | .square => "']'"

/-- What is missing where the tokens end, in words: an expression at the beginning
and after an opening parenthesis, and otherwise what closes the innermost bracket
that is open among them. -/
inductive Missing (tokens : List Token) : String → Prop where
  | expression (h : tokens = [] ∨ EndsOpen tokens) : Missing tokens "an expression"
  | closing {shape : Brackets.Shape} {around : List Brackets.Shape}
      (h : ¬ (tokens = [] ∨ EndsOpen tokens))
      (hopen : Brackets.openAfter [] tokens = .ok (shape :: around)) :
      Missing tokens (closingText shape)

/-- The sort of an open bracket. -/
def Open.shape : Open → Brackets.Shape
  | .callee _ | .args _ _ _ => .round
  | .items _ => .square

/-- What is missing under the open brackets. -/
def missingUnder : List Open → Expected
  | [] => .expression
  | innermost :: _ => innermost.missing

section Missing

variable {stack : List Open} {u w tokens : List Token} {t : Token} {form : Value}

private theorem Consumed.openAfter_append (h : Consumed stack u) (rest : List Token) :
    Brackets.openAfter [] (u ++ rest) = Brackets.openAfter (stack.map Open.shape) rest := by
  induction h generalizing rest with
  | none => rfl
  | callee _ hopening ih =>
      rw [List.append_assoc, ih, List.singleton_append,
        Brackets.openAfter_opening (by rw [hopening]; rfl)]
      rfl
  | args _ hopening hcallee hrows _ ih =>
      rw [List.append_assoc, ih, List.cons_append,
        Brackets.openAfter_opening (by rw [hopening]; rfl), List.append_assoc,
        Brackets.openAfter_derives hcallee,
        Brackets.openAfter_rows fun row hrow => Brackets.openAfter_derives (hrows row hrow)]
      rfl
  | items _ hopening hrows _ ih =>
      rw [List.append_assoc, ih, List.cons_append,
        Brackets.openAfter_opening (by rw [hopening]; rfl),
        Brackets.openAfter_rows fun row hrow => Brackets.openAfter_derives (hrows row hrow)]
      rfl

/-- The open brackets among the tokens are those on the stack. -/
theorem Consumed.openAfter_eq (h : Consumed stack u) :
    Brackets.openAfter [] u = .ok (stack.map Open.shape) := by
  have hall := h.openAfter_append []
  rwa [List.append_nil] at hall

theorem not_endsOpen_concat (u : List Token) (h : t.kind ≠ .leftParen) :
    ¬ EndsOpen (u ++ [t]) := by
  rintro ⟨before, s, heq, hs⟩
  obtain ⟨-, hlast⟩ := List.append_inj' heq rfl
  cases hlast
  exact h hs

/-- A form does not end with an opening parenthesis. -/
theorem Derives.not_endsOpen (h : Derives w form) (u : List Token) : ¬ EndsOpen (u ++ w) := by
  cases h with
  | atom hatom =>
      refine not_endsOpen_concat u fun hkind => ?_
      rw [hkind] at hatom
      cases hatom
  | call _ _ _ hclosing =>
      rw [← List.cons_append, ← List.append_assoc, ← List.append_assoc]
      exact not_endsOpen_concat _ (by rw [hclosing]; nofun)
  | vector _ _ hclosing =>
      rw [← List.cons_append, ← List.append_assoc]
      exact not_endsOpen_concat _ (by rw [hclosing]; nofun)

private theorem not_endsOpen_rows {rows : List (List Token × Value)}
    (hrows : ∀ row ∈ rows, Derives row.1 row.2) (hu : ¬ EndsOpen u) :
    ¬ EndsOpen (u ++ rows.flatMap Prod.fst) := by
  rcases List.eq_nil_or_concat rows with rfl | ⟨more, row, rfl⟩
  · rwa [List.flatMap_nil, List.append_nil]
  · rw [List.concat_eq_append, List.flatMap_append, List.flatMap_singleton, ← List.append_assoc]
    exact (hrows row (by simp)).not_endsOpen _

/-- Where the reader misses something, that is missing. -/
theorem Consumed.missing (h : Consumed stack u) : Missing u (missingUnder stack).text := by
  have hopen := h.openAfter_eq
  cases h with
  | none => exact .expression (.inl rfl)
  | callee _ hopening => exact .expression (.inr ⟨_, _, rfl, hopening⟩)
  | args _ _ hcallee hrows _ =>
      show Missing _ (closingText .round)
      refine .closing ?_ hopen
      rintro (hnil | hends)
      · simp at hnil
      · rw [← List.cons_append, ← List.append_assoc, List.append_cons] at hends
        exact not_endsOpen_rows hrows (hcallee.not_endsOpen _) hends
  | items _ hopening hrows _ =>
      show Missing _ (closingText .square)
      refine .closing ?_ hopen
      rintro (hnil | hends)
      · simp at hnil
      · rw [← List.singleton_append, ← List.append_assoc] at hends
        refine not_endsOpen_rows hrows (not_endsOpen_concat _ ?_) hends
        rw [hopening]
        nofun

end Missing

/-! ## Errors -/

section Errors

variable {stack : List Open} {u tokens : List Token} {e : Error}

/-- The reader fails at the end of the tokens, or it refuses one of them; either
way the tokens before are consumed. -/
theorem Consumed.error_cases (h : Consumed stack u) (herror : readUnder stack tokens = .error e) :
    (∃ left, Consumed left (u ++ tokens) ∧ e = .unexpectedEnd (missingUnder left)) ∨
      ∃ v t rest left expected, tokens = v ++ t :: rest ∧ Consumed left (u ++ v) ∧
        move left t = .refuse expected ∧ e = .unexpectedToken t expected := by
  -- along the run; what the stack has consumed grows by the token that is read
  fun_induction readUnder stack tokens generalizing u with
  | case1 =>
      cases herror
      exact .inl ⟨[], by rwa [List.append_nil], rfl⟩
  | case2 innermost around =>
      cases herror
      exact .inl ⟨innermost :: around, by rwa [List.append_nil], rfl⟩
  | case3 stack t rest bracket hmove ih =>
      rcases ih (h.enter hmove) herror with ⟨left, hleft, he⟩ |
        ⟨v, t', rest', left, expected, rfl, hleft, hrefused, he⟩
      · exact .inl ⟨left, by rwa [← List.append_cons] at hleft, he⟩
      · exact .inr ⟨t :: v, t', rest', left, expected, rfl, by rwa [← List.append_cons] at hleft,
          hrefused, he⟩
  | case4 => cases herror
  | case5 stack t rest form innermost around hmove ih =>
      obtain ⟨v, w, hconsumed, hderives, hword⟩ := h.complete hmove
      have hpushed := hconsumed.push hderives
      rw [← hword] at hpushed
      rcases ih hpushed herror with ⟨left, hleft, he⟩ |
        ⟨v, t', rest', left, expected, rfl, hleft, hrefused, he⟩
      · exact .inl ⟨left, by rwa [← List.append_cons] at hleft, he⟩
      · exact .inr ⟨t :: v, t', rest', left, expected, rfl, by rwa [← List.append_cons] at hleft,
          hrefused, he⟩
  | case6 stack t rest expected hmove =>
      cases herror
      exact .inr ⟨[], t, rest, stack, expected, rfl, by rwa [List.append_nil], hmove, rfl⟩

/-- What comes after a form is impossible. -/
theorem Derives.not_viable {w : List Token} {form : Value} (h : Derives w form) (t : Token) :
    ¬ Viable (w ++ [t]) := by
  rintro ⟨more, form', hderives⟩
  have hread := hderives.next_eq []
  rw [List.append_nil, List.append_assoc, h.next_eq] at hread
  cases hread

private theorem firstImpossible_of_append {v rest : List Token} {t : Token} (hviable : Viable v)
    (himpossible : ¬ Viable (v ++ [t])) : FirstImpossible (v ++ t :: rest) v.length where
  viable := by rwa [List.take_left]
  impossible := by
    have hlength : v.length + 1 = (v ++ [t]).length := by simp
    rwa [List.append_cons, hlength, List.take_left]

/-- An error is the end of tokens that can be completed, or the first impossible
token. -/
theorem readAll_error_cases (h : readAll tokens = .error e) :
    (∃ expected, e = .unexpectedEnd expected ∧ Viable tokens ∧ Missing tokens expected.text) ∨
      ∃ k t expected, e = .unexpectedToken t expected ∧ tokens[k]? = some t ∧
        FirstImpossible tokens k := by
  unfold readAll at h
  split at h
  · rename_i hnext
    cases h
    rcases Consumed.none.error_cases hnext with ⟨left, hleft, rfl⟩ |
      ⟨v, t, rest, left, expected, rfl, hleft, hrefused, rfl⟩
    · exact .inl ⟨_, rfl, hleft.viable, hleft.missing⟩
    · exact .inr ⟨v.length, t, expected, rfl, by simp,
        firstImpossible_of_append hleft.viable (hleft.not_viable hrefused)⟩
  · cases h
  · rename_i form t rest hnext
    cases h
    obtain ⟨w, hderives, rfl⟩ := exists_derives_of_next hnext
    have hviable : Viable w := ⟨[], form, by rwa [List.append_nil]⟩
    exact .inr ⟨w.length, t, _, rfl, by simp,
      firstImpossible_of_append hviable (hderives.not_viable t)⟩

end Errors

/-- Of tokens that derive no form the reader misses more exactly if they can be
completed to a form, and it says what is missing.  Otherwise it refuses one, and
this is the token up to which they can be completed and with which they cannot;
there is only one such place. -/
theorem readAll_error_iff {tokens : List Token} (h : ∀ form, ¬ Derives tokens form) :
    ((∃ expected, readAll tokens = .error (.unexpectedEnd expected)) ↔
      ∃ t more form, Derives (tokens ++ t :: more) form) ∧
    (∀ expected, readAll tokens = .error (.unexpectedEnd expected) →
      Missing tokens expected.text) ∧
    (∀ found, (∃ expected, readAll tokens = .error (.unexpectedToken found expected)) ↔
      ∃ k, tokens[k]? = some found ∧ FirstImpossible tokens k) ∧
    ∀ j k, FirstImpossible tokens j → FirstImpossible tokens k → j = k := by
  obtain ⟨e, herror⟩ : ∃ e, readAll tokens = .error e := by
    cases hread : readAll tokens with
    | ok form => exact absurd (readAll_eq_ok_iff.mp hread) (h form)
    | error e => exact ⟨e, rfl⟩
  have hplace {k : Nat} (hfirst : FirstImpossible tokens k) : ¬ Viable tokens :=
    fun hviable => hfirst.impossible (hviable.take (k + 1))
  rw [herror]
  rcases readAll_error_cases herror with ⟨expected, rfl, hviable, hmissing⟩ |
    ⟨k, t, expected, rfl, ht, hfirst⟩
  · refine ⟨⟨fun _ => ?_, fun _ => ⟨expected, rfl⟩⟩, ?_, fun found => ⟨?_, ?_⟩,
      fun j k hj hk => hj.unique hk⟩
    · obtain ⟨more, form, hderives⟩ := hviable
      cases more with
      | nil => exact absurd hderives (by rw [List.append_nil]; exact h form)
      | cons t more => exact ⟨t, more, form, hderives⟩
    · rintro _ ⟨⟩
      exact hmissing
    · rintro ⟨_, ⟨⟩⟩
    · rintro ⟨k, -, hfirst⟩
      exact absurd hviable (hplace hfirst)
  · refine ⟨⟨?_, ?_⟩, ?_, fun found => ⟨?_, ?_⟩, fun j k hj hk => hj.unique hk⟩
    · rintro ⟨_, ⟨⟩⟩
    · rintro ⟨s, more, form, hderives⟩
      exact absurd ⟨s :: more, form, hderives⟩ (hplace hfirst)
    · rintro _ ⟨⟩
    · rintro ⟨_, ⟨⟩⟩
      exact ⟨k, ht, hfirst⟩
    · rintro ⟨j, hj, hfirst'⟩
      rw [hfirst'.unique hfirst, ht] at hj
      cases hj
      exact ⟨expected, rfl⟩

/-- The parenthesis clashes with the bracket that is open, and without it a
callee is missing behind the one before. -/
theorem readAll_error_iff_clash :
    (∀ form, ¬ Derives [⟨.leftParen, ⟨0, 1⟩⟩, ⟨.leftBracket, ⟨1, 2⟩⟩, ⟨.rightParen, ⟨2, 3⟩⟩] form) ∧
    FirstImpossible [⟨.leftParen, ⟨0, 1⟩⟩, ⟨.leftBracket, ⟨1, 2⟩⟩, ⟨.rightParen, ⟨2, 3⟩⟩] 2 ∧
    (∀ form, ¬ Derives [⟨.leftBracket, ⟨0, 1⟩⟩, ⟨.leftParen, ⟨1, 2⟩⟩] form) ∧
    (∃ t more form, Derives ([⟨.leftBracket, ⟨0, 1⟩⟩, ⟨.leftParen, ⟨1, 2⟩⟩] ++ t :: more) form) ∧
    Missing [⟨.leftBracket, ⟨0, 1⟩⟩, ⟨.leftParen, ⟨1, 2⟩⟩] "an expression" := by
  have hnot (tokens : List Token) {e : Error} (h : readAll tokens = .error e) (form : Value) :
      ¬ Derives tokens form := by
    rw [← readAll_eq_ok_iff, h]
    nofun
  have hclash := hnot [⟨.leftParen, ⟨0, 1⟩⟩, ⟨.leftBracket, ⟨1, 2⟩⟩, ⟨.rightParen, ⟨2, 3⟩⟩] rfl
  have hshort := hnot [⟨.leftBracket, ⟨0, 1⟩⟩, ⟨.leftParen, ⟨1, 2⟩⟩] rfl
  obtain ⟨-, -, hrefused, -⟩ := readAll_error_iff hclash
  obtain ⟨hend, hmissing, -⟩ := readAll_error_iff hshort
  obtain ⟨k, hk, hfirst⟩ := (hrefused ⟨.rightParen, ⟨2, 3⟩⟩).mp ⟨_, rfl⟩
  refine ⟨hclash, ?_, hshort, hend.mp ⟨_, rfl⟩, hmissing _ rfl⟩
  rcases k with _ | _ | _ | k
  · cases hk
  · cases hk
  · exact hfirst
  · cases hk

end LazyLisp.Reader
