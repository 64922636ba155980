import LazyLisp.Brackets.Balance
import LazyLisp.Proofs.Grammar
import LazyLisp.Proofs.Lexing.Strings
import LazyLisp.Proofs.Lexing.Words

/-!
# Brackets of a text and brackets among its tokens

A session judges the brackets of a line by a scan over its characters, which
knows quotes and backslashes and nothing else of the language.  The reader
judges the brackets among the tokens that the lexer cuts off.  This module says
where the two come to the same.

The scan takes a piece of the text at a time, as the lexer does.  A string
literal is one stretch inside a string, from quote to quote: the lexer ends a
string by a longest match with an optional last character, but a literal that
has a value ends in the quote that the scan stops at.  No other piece holds a
quote, and a bracket stands in no other piece than the one it is.  What is left
are comments.  The scan does not know them, so that a bracket or a quote in a
comment counts for it.

`Row` is a text as the scan sees it: pieces of tokens, and plain text between
them.

## Main results

* `passes_literal` — a string literal with a value is one stretch inside a
  string.
* `Row.verdictFrom_eq` — over a row, the scan of the characters judges the
  brackets among the tokens.
* `verdict_eq_judge` — so it does for every text whose comment signs all stand
  in strings, and says exactly what stands in one.
* `verdict_of_read` — a text that is read as a form is valid, unless a comment
  holds a bracket or a quote.
-/

namespace LazyLisp.Brackets

/-! ## The brackets among tokens -/

/-- The two sorts of brackets. -/
inductive Shape where
  | round
  | square
deriving DecidableEq

/-- The character that opens a bracket. -/
def Shape.opening : Shape → Char
  | .round => '('
  | .square => '['

/-- The character that closes a bracket. -/
def Shape.closing : Shape → Char
  | .round => ')'
  | .square => ']'

/-- The sort of bracket that a token opens. -/
def opens? : Token.Kind → Option Shape
  | .leftParen => some .round
  | .leftBracket => some .square
  | _ => none

/-- The sort of bracket that a token closes. -/
def closes? : Token.Kind → Option Shape
  | .rightParen => some .round
  | .rightBracket => some .square
  | _ => none

/-- The brackets that are open after the tokens, innermost first, if those on
the stack were open before; or the first closing bracket that does not belong
to the innermost open one. -/
def openAfter (stack : List Shape) : List Token → Except (Shape × Token) (List Shape)
  | [] => .ok stack
  | t :: rest =>
      match opens? t.kind, closes? t.kind with
      | some shape, _ => openAfter (shape :: stack) rest
      | none, some shape =>
          if stack.head? = some shape then openAfter stack.tail rest else .error (shape, t)
      | none, none => openAfter stack rest

/-- What the brackets among the tokens of a text come to.  A closing bracket
without an opening one is placed by the number of characters before it. -/
def judge (source : List Char) : Except (Shape × Token) (List Shape) → Verdict
  | .ok [] => .valid
  | .ok (_ :: _) => .incomplete
  | .error (shape, t) => .invalid shape.closing (Text.beforeByte t.span.start source).length

theorem openAfter_opening {t : Token} {shape : Shape} (h : opens? t.kind = some shape)
    (stack : List Shape) (rest : List Token) :
    openAfter stack (t :: rest) = openAfter (shape :: stack) rest := by
  rw [openAfter, h]

theorem openAfter_closing {t : Token} {shape : Shape} (hopens : opens? t.kind = none)
    (h : closes? t.kind = some shape) (stack : List Shape) (rest : List Token) :
    openAfter stack (t :: rest) =
      if stack.head? = some shape then openAfter stack.tail rest else .error (shape, t) := by
  rw [openAfter, hopens, h]

theorem openAfter_other {t : Token} (hopens : opens? t.kind = none) (h : closes? t.kind = none)
    (stack : List Shape) (rest : List Token) :
    openAfter stack (t :: rest) = openAfter stack rest := by
  rw [openAfter, hopens, h]

/-- Rows of words leave the open brackets as they were if each of them does. -/
theorem openAfter_rows {rows : List (List Token × Value)}
    (h : ∀ row ∈ rows, ∀ stack rest, openAfter stack (row.1 ++ rest) = openAfter stack rest)
    (stack : List Shape) (rest : List Token) :
    openAfter stack (rows.flatMap Prod.fst ++ rest) = openAfter stack rest := by
  induction rows with
  | nil => rfl
  | cons row more ih =>
      obtain ⟨hrow, hmore⟩ := List.forall_mem_cons.mp h
      rw [List.flatMap_cons, List.append_assoc, hrow, ih hmore]

/-- A word that derives a form leaves the open brackets as they were. -/
theorem openAfter_derives {w : List Token} {form : Value} (h : Reader.Derives w form)
    (stack : List Shape) (rest : List Token) :
    openAfter stack (w ++ rest) = openAfter stack rest := by
  induction h generalizing stack rest with
  | @atom t form hatom =>
      have hopens : opens? t.kind = none := by
        cases hkind : t.kind <;> rw [hkind] at hatom <;> first | rfl | cases hatom
      have hcloses : closes? t.kind = none := by
        cases hkind : t.kind <;> rw [hkind] at hatom <;> first | rfl | cases hatom
      exact openAfter_other hopens hcloses stack rest
  | @call opening closing w callee rows hopening _ _ hclosing ihcallee ihrows =>
      have hopens : opens? opening.kind = some .round := by rw [hopening]; rfl
      have hnone : opens? closing.kind = none := by rw [hclosing]; rfl
      have hcloses : closes? closing.kind = some .round := by rw [hclosing]; rfl
      rw [List.cons_append, openAfter_opening hopens, List.append_assoc, ihcallee,
        List.append_assoc, openAfter_rows ihrows, List.singleton_append,
        openAfter_closing hnone hcloses]
      rfl
  | @vector opening closing rows hopening _ hclosing ihrows =>
      have hopens : opens? opening.kind = some .square := by rw [hopening]; rfl
      have hnone : opens? closing.kind = none := by rw [hclosing]; rfl
      have hcloses : closes? closing.kind = some .square := by rw [hclosing]; rfl
      rw [List.cons_append, openAfter_opening hopens, List.append_assoc, openAfter_rows ihrows,
        List.singleton_append, openAfter_closing hnone hcloses]
      rfl

/-! ## The scan over one piece -/

/-- Where a scan stands after a text. -/
def Quoting.after (q : Quoting) (cs : List Char) : Quoting := cs.foldl (fun q c => (q.feed c).2) q

/-- All characters of the text are told to be in a string, or all are told not
to be, on the way from one place to another. -/
inductive Quoting.Passes (inString : Bool) : Quoting → List Char → Quoting → Prop where
  | nil (q : Quoting) : Passes inString q [] q
  | cons {q r s : Quoting} {c : Char} {rest : List Char} (hfeed : q.feed c = (inString, r))
      (hrest : Passes inString r rest s) : Passes inString q (c :: rest) s

/-- Whether the character is a bracket or a quote: one that the scan heeds
outside a string. -/
def isDelimiter (c : Char) : Bool := isOpening c || isClosing c || c == '"'

section Passes

variable {inString : Bool} {q r s : Quoting} {cs ds : List Char}

theorem Quoting.after_append (q : Quoting) (cs ds : List Char) :
    q.after (cs ++ ds) = (q.after cs).after ds := by
  simp [after]

/-- Two passages over texts that follow each other are one. -/
theorem Quoting.Passes.append (h : Passes inString q cs r) (h' : Passes inString r ds s) :
    Passes inString q (cs ++ ds) s := by
  induction h with
  | nil q => exact h'
  | cons hfeed _ ih => exact .cons hfeed (ih h')

/-- A passage ends in the state that the tracker is left in. -/
theorem Quoting.Passes.after_eq (h : Passes inString q cs r) : q.after cs = r := by
  induction h with
  | nil q => rfl
  | cons hfeed _ ih => rw [after, List.foldl_cons, hfeed]; exact ih

/-- Every single character gets the same answer. -/
theorem Quoting.Passes.feed_eq (h : Passes inString q cs r) {before after : List Char} {c : Char}
    (hcs : cs = before ++ c :: after) : ((q.after before).feed c).1 = inString := by
  induction h generalizing before with
  | nil q => simp at hcs
  | @cons q r s d rest hfeed _ ih =>
      cases before with
      | nil =>
          have hd : d = c := (List.cons.inj hcs).1
          show (q.feed c).1 = inString
          rw [← hd, hfeed]
      | cons e more =>
          obtain ⟨rfl, hrest⟩ := List.cons.inj hcs
          rw [Quoting.after, List.foldl_cons, hfeed]
          exact ih hrest

/-- Text without quotes stays outside strings. -/
theorem passes_plain (h : ∀ c ∈ cs, c ≠ '"') : Quoting.Passes false .outside cs .outside := by
  induction cs with
  | nil => exact .nil _
  | cons c rest ih =>
      obtain ⟨hc, hrest⟩ := List.forall_mem_cons.mp h
      exact .cons (Quoting.feed_outside hc) (ih hrest)

/-- The scan looks at nothing while it is inside a string. -/
theorem verdictFrom_passes (h : Quoting.Passes true q cs r) (stack : List Char) (place : Nat)
    (rest : List Char) :
    verdictFrom q stack place (cs ++ rest) = verdictFrom r stack (place + cs.length) rest := by
  induction h generalizing place with
  | nil q => rfl
  | @cons q r s c more hfeed _ ih =>
      rw [List.cons_append, verdictFrom, hfeed]
      show verdictFrom r stack (place + 1) (more ++ rest) = _
      rw [ih, List.length_cons, Nat.add_assoc, Nat.add_comm 1]

/-- Outside strings it looks at brackets and quotes. -/
theorem verdictFrom_plain (h : ∀ c ∈ cs, isDelimiter c = false) (stack : List Char) (place : Nat)
    (rest : List Char) :
    verdictFrom .outside stack place (cs ++ rest) =
      verdictFrom .outside stack (place + cs.length) rest := by
  induction cs generalizing place with
  | nil => rfl
  | cons c more ih =>
      obtain ⟨hc, hmore⟩ := List.forall_mem_cons.mp h
      simp only [isDelimiter, Bool.or_eq_false_iff, beq_eq_false_iff_ne] at hc
      obtain ⟨⟨hopening, hclosing⟩, hquote⟩ := hc
      rw [List.cons_append, verdictFrom, Quoting.feed_outside hquote]
      simp only [hopening, hclosing, Bool.false_eq_true, if_false]
      rw [ih hmore, List.length_cons, Nat.add_assoc, Nat.add_comm 1]

/-- An opening bracket is added to those that are open. -/
theorem verdictFrom_opening (shape : Shape) (stack : List Char) (place : Nat)
    (rest : List Char) :
    verdictFrom .outside stack place (shape.opening :: rest) =
      verdictFrom .outside (shape.opening :: stack) (place + 1) rest := by
  cases shape <;> rfl

/-- A closing bracket takes the innermost open one away if it fits, and is refused
if not. -/
theorem verdictFrom_closing (shape : Shape) (stack : List Shape) (place : Nat)
    (rest : List Char) :
    verdictFrom .outside (stack.map Shape.opening) place (shape.closing :: rest) =
      if stack.head? = some shape then
        verdictFrom .outside (stack.tail.map Shape.opening) (place + 1) rest
      else .invalid shape.closing place := by
  cases stack with
  | nil => cases shape <;> rfl
  | cons inner around => cases shape <;> cases inner <;> rfl

end Passes

/-! ### String literals -/

/-- The body of a string is passed inside it. -/
theorem passes_units {w : List Char} (h : (Token.Regex.many Token.bodyUnit).Matches w) :
    Quoting.Passes true .inside w .inside := by
  induction h using Token.Regex.Matches.many_induction with
  | stop => exact .nil _
  | @more u v hu _ ih =>
      refine Quoting.Passes.append ?_ ih
      rcases Token.matches_bodyUnit_iff.mp hu with ⟨c, rfl, hquote, hbackslash⟩ | ⟨c, rfl, -⟩
      · exact .cons (by simp [Quoting.feed, hquote, hbackslash]) (.nil _)
      · exact .cons rfl (.cons rfl (.nil _))

/-- A string literal with a value is one stretch inside a string. -/
theorem passes_literal {piece : List Char} {s : String}
    (h : (Token.Pattern.regex .string).Matches piece) (hvalue : Token.stringValue piece = .ok s) :
    Quoting.Passes true .outside piece .outside := by
  obtain ⟨body, rfl, hbody, -⟩ := Token.exists_literal h hvalue
  exact .cons rfl ((passes_units hbody).append (.cons rfl (.nil _)))

/-! ## The scan over a text -/

/-- Whether a token is a string. -/
def isString : Token.Kind → Bool
  | .string _ => true
  | _ => false

/-- The byte offset lies inside one of the tokens. -/
def InToken (ts : List Token) (place : Nat) : Prop :=
  ∃ t ∈ ts, t.span.start ≤ place ∧ place < t.span.stop

/-- The byte offset lies inside one of the strings among the tokens. -/
def InString (ts : List Token) (place : Nat) : Prop :=
  InToken (ts.filter fun t => isString t.kind) place

/-- How the scan takes the piece of a token: a string in one stretch inside it,
a bracket for itself, and anything else as plain text. -/
inductive Spells : Token.Kind → List Char → Prop where
  | opening {kind : Token.Kind} {shape : Shape} (h : opens? kind = some shape) :
      Spells kind [shape.opening]
  | closing {kind : Token.Kind} {shape : Shape} (hopens : opens? kind = none)
      (h : closes? kind = some shape) : Spells kind [shape.closing]
  | string {s : String} {piece : List Char} (h : Quoting.Passes true .outside piece .outside) :
      Spells (.string s) piece
  | plain {kind : Token.Kind} {piece : List Char} (hopens : opens? kind = none)
      (hcloses : closes? kind = none) (hstring : isString kind = false)
      (h : ∀ c ∈ piece, isDelimiter c = false) : Spells kind piece

/-- A text that begins at a byte offset: pieces of tokens, with plain text
between them. -/
inductive Row : Nat → List Char → List Token → Prop where
  | done (offset : Nat) : Row offset [] []
  | skip {offset : Nat} {piece rest : List Char} {ts : List Token}
      (hpiece : ∀ c ∈ piece, isDelimiter c = false)
      (hrest : Row (offset + Text.byteLength piece) rest ts) : Row offset (piece ++ rest) ts
  | token {kind : Token.Kind} {offset : Nat} {piece rest : List Char} {ts : List Token}
      (hpiece : Spells kind piece) (hrest : Row (offset + Text.byteLength piece) rest ts) :
      Row offset (piece ++ rest) (⟨kind, ⟨offset, offset + Text.byteLength piece⟩⟩ :: ts)

private theorem isDelimiter_of_continuesSymbol {c : Char} (h : Token.continuesSymbol c = true) :
    isDelimiter c = false := by
  cases hdelimiter : isDelimiter c with
  | false => rfl
  | true =>
      simp only [isDelimiter, isOpening, isClosing, Bool.or_eq_true, beq_iff_eq] at hdelimiter
      rcases hdelimiter with ((rfl | rfl) | rfl | rfl) | rfl <;> exact absurd h (by decide)

private theorem isDelimiter_of_isSeparator {c : Char} (h : Token.isSeparator c = true) :
    isDelimiter c = false := by
  simp only [Token.isSeparator, Bool.or_eq_true, beq_iff_eq] at h
  rcases h with ((rfl | rfl) | rfl) | rfl <;> decide

theorem ne_quote_of_isDelimiter {c : Char} (h : isDelimiter c = false) : c ≠ '"' := by
  rintro rfl
  exact absurd h (by decide)

/-- The piece that a token was cut from spells it. -/
theorem spells_of_matches {p : Token.Pattern} {piece : List Char} {kind : Token.Kind}
    (h : p.regex.Matches piece) (htoken : Token.ofPiece p piece = .ok (some kind)) :
    Spells kind piece := by
  have hword (hp : p.isWord = true) : ∀ c ∈ piece, isDelimiter c = false :=
    fun c hc => isDelimiter_of_continuesSymbol (Token.continuesSymbol_of_matches hp h c hc)
  cases p with
  | separators | comment => cases htoken
  | leftParen =>
      cases htoken
      cases Token.Regex.matches_char_iff.mp h
      exact .opening (show opens? .leftParen = some .round from rfl)
  | leftBracket =>
      cases htoken
      cases Token.Regex.matches_char_iff.mp h
      exact .opening (show opens? .leftBracket = some .square from rfl)
  | rightParen =>
      cases htoken
      cases Token.Regex.matches_char_iff.mp h
      exact .closing rfl (show closes? .rightParen = some .round from rfl)
  | rightBracket =>
      cases htoken
      cases Token.Regex.matches_char_iff.mp h
      exact .closing rfl (show closes? .rightBracket = some .square from rfl)
  | boolean | float | symbol =>
      cases htoken
      exact .plain rfl rfl rfl (hword rfl)
  | integer =>
      simp only [Token.ofPiece] at htoken
      split at htoken <;> cases htoken
      exact .plain rfl rfl rfl (hword rfl)
  | string =>
      simp only [Token.ofPiece] at htoken
      cases hvalue : Token.stringValue piece with
      | ok s =>
          rw [hvalue] at htoken
          cases htoken
          exact .string (passes_literal h hvalue)
      | error fault => rw [hvalue] at htoken; cases htoken

/-- A piece is passed in one stretch. -/
theorem Spells.passes {kind : Token.Kind} {piece : List Char} (h : Spells kind piece) :
    Quoting.Passes (isString kind) .outside piece .outside := by
  cases h with
  | @opening kind shape h =>
      have hstring : isString kind = false := by
        cases kind <;> first | rfl | cases h
      rw [hstring]
      exact passes_plain (List.forall_mem_singleton.mpr (by cases shape <;> decide))
  | @closing kind shape _ h =>
      have hstring : isString kind = false := by
        cases kind <;> first | rfl | cases h
      rw [hstring]
      exact passes_plain (List.forall_mem_singleton.mpr (by cases shape <;> decide))
  | string h => exact h
  | plain _ _ hstring h =>
      rw [hstring]
      exact passes_plain fun c hc => ne_quote_of_isDelimiter (h c hc)

/-! ### Places -/

section Places

variable {offset stop place : Nat} {text left : List Char} {ts : List Token} {t : Token}

/-- A character of a piece begins before the piece ends. -/
theorem byteLength_before_lt {piece before after : List Char} {c : Char}
    (h : piece = before ++ c :: after) : Text.byteLength before < Text.byteLength piece := by
  have := c.utf8Size_pos
  rw [h, Text.byteLength_append, Text.byteLength_cons]
  omega

/-- A character of two pieces stands in the first or in the second. -/
theorem mem_append_cases {piece rest before after : List Char} {c : Char}
    (h : piece ++ rest = before ++ c :: after) :
    (∃ more, piece = before ++ c :: more) ∨
      ∃ more, before = piece ++ more ∧ rest = more ++ c :: after := by
  rcases List.append_eq_append_iff.mp h with ⟨more, hbefore, hrest⟩ | ⟨more, hpiece, hafter⟩
  · exact .inr ⟨more, hbefore, hrest⟩
  · cases more with
    | nil => exact .inr ⟨[], by simpa using hpiece.symm, hafter.symm⟩
    | cons d more =>
        obtain ⟨rfl, -⟩ := List.cons.inj hafter
        exact .inl ⟨more, hpiece⟩

theorem inToken_cons : InToken (t :: ts) place ↔
    (t.span.start ≤ place ∧ place < t.span.stop) ∨ InToken ts place := by
  simp [InToken]

private theorem inString_cons : InString (t :: ts) place ↔
    (isString t.kind = true ∧ t.span.start ≤ place ∧ place < t.span.stop) ∨
      InString ts place := by
  by_cases hstring : isString t.kind = true
  · simp [InString, hstring, inToken_cons]
  · simp [InString, hstring]

/-- What is in a string is in a token. -/
theorem InString.inToken (h : InString ts place) : InToken ts place := by
  obtain ⟨t, ht, hstart, hstop⟩ := h
  exact ⟨t, (List.mem_filter.mp ht).1, hstart, hstop⟩

/-- The tokens of a text stand in it. -/
theorem le_of_inToken (hcut : Token.Cut offset text ts stop []) (h : InToken ts place) :
    offset ≤ place := by
  obtain ⟨t, ht, hstart, -⟩ := h
  obtain ⟨before, _, _, -, -, hfirst, -⟩ := (hcut.laid rfl).boundaries t ht
  omega

private theorem Row.le_of_inToken (hrow : Row offset text ts) (h : InToken ts place) :
    offset ≤ place := by
  induction hrow with
  | done offset => exact absurd h (by simp [InToken])
  | skip _ _ ih =>
      have := ih h
      omega
  | token _ _ ih =>
      rcases inToken_cons.mp h with hhead | htail
      · exact hhead.1
      · have := ih htail
        omega

/-- A character of the class stands in a text only inside tokens. -/
def Inside (heeded : Char → Bool) (offset : Nat) (text : List Char) (ts : List Token) : Prop :=
  ∀ before c after, text = before ++ c :: after → heeded c = true →
    InToken ts (offset + Text.byteLength before)

/-- A text is a row if certain characters stand inside tokens only, and no
space between tokens can do without them but a plain one. -/
theorem row_of_cut (heeded : Char → Bool)
    (hspace : ∀ piece, (Token.Regex.either (Token.Pattern.regex .separators)
      (Token.Pattern.regex .comment)).Matches piece →
        (∀ c ∈ piece, heeded c = false) → ∀ c ∈ piece, isDelimiter c = false)
    (h : Token.Cut offset text ts stop left) (hleft : left = [])
    (hinside : Inside heeded offset text ts) : Row offset text ts := by
  induction h with
  | done offset text => exact hleft ▸ .done offset
  | @skip p offset stop piece rest left ts hpiece hskip hrest ih =>
      subst hleft
      refine .skip (hspace piece (Token.matches_gap_of_ofPiece hpiece.matched hskip) ?_) (ih rfl ?_)
      · -- the tokens all stand after this piece
        intro c hc
        obtain ⟨before, after, hsplit⟩ := List.append_of_mem hc
        have hbefore := byteLength_before_lt hsplit
        cases hheeded : heeded c with
        | false => rfl
        | true =>
            have hplace := le_of_inToken hrest
              (hinside before c (after ++ rest) (by simp [hsplit]) hheeded)
            omega
      · intro before c after htext hheeded
        have := hinside (piece ++ before) c after (by rw [htext, List.append_assoc]) hheeded
        rwa [Text.byteLength_append, ← Nat.add_assoc] at this
  | @token p kind offset stop piece rest left ts hpiece htoken _ ih =>
      refine .token (spells_of_matches hpiece.matched htoken) (ih hleft ?_)
      intro before c after htext hheeded
      have hplace := hinside (piece ++ before) c after (by rw [htext, List.append_assoc]) hheeded
      rw [Text.byteLength_append, ← Nat.add_assoc] at hplace
      rcases inToken_cons.mp hplace with ⟨-, hbefore⟩ | htail
      · simp only at hbefore
        omega
      · exact htail

end Places

/-- Over a row the scan is inside a string exactly inside the strings among
the tokens. -/
theorem Row.feed_iff {offset : Nat} {text : List Char} {ts : List Token} (h : Row offset text ts)
    {before after : List Char} {c : Char} (htext : text = before ++ c :: after) :
    ((Quoting.outside.after before).feed c).1 = true ↔
      InString ts (offset + Text.byteLength before) := by
  induction h generalizing before with
  | done offset => simp at htext
  | @skip offset piece rest ts hpiece hrest ih =>
      have hpass := passes_plain fun c hc => ne_quote_of_isDelimiter (hpiece c hc)
      rcases mem_append_cases htext with ⟨more, hhere⟩ | ⟨more, rfl, hthere⟩
      · have hbefore := byteLength_before_lt hhere
        rw [hpass.feed_eq hhere]
        refine ⟨fun h => absurd h Bool.false_ne_true, fun h => ?_⟩
        have := hrest.le_of_inToken h.inToken
        omega
      · rw [Quoting.after_append, hpass.after_eq, ih hthere, Text.byteLength_append,
          Nat.add_assoc]
  | @token kind offset piece rest ts hpiece hrest ih =>
      have hpass := hpiece.passes
      rw [inString_cons]
      rcases mem_append_cases htext with ⟨more, hhere⟩ | ⟨more, rfl, hthere⟩
      · have hbefore := byteLength_before_lt hhere
        rw [hpass.feed_eq hhere]
        refine ⟨fun h => .inl ⟨h, by simp only; omega, by simp only; omega⟩, ?_⟩
        rintro (⟨h, -⟩ | h)
        · exact h
        · have := hrest.le_of_inToken h.inToken
          omega
      · rw [Quoting.after_append, hpass.after_eq, ih hthere, Text.byteLength_append,
          Nat.add_assoc]
        refine ⟨.inr, ?_⟩
        rintro (⟨-, -, h⟩ | h)
        · simp only at h
          omega
        · exact h

/-- A row ends outside strings. -/
theorem Row.after_eq {offset : Nat} {text : List Char} {ts : List Token} (h : Row offset text ts) :
    Quoting.outside.after text = .outside := by
  induction h with
  | done offset => rfl
  | skip hpiece _ ih =>
      have hpass := passes_plain fun c hc => ne_quote_of_isDelimiter (hpiece c hc)
      rw [Quoting.after_append, hpass.after_eq, ih]
  | token hpiece _ ih => rw [Quoting.after_append, hpiece.passes.after_eq, ih]

/-- Over a row the scan judges the brackets among the tokens. -/
theorem Row.verdictFrom_eq {offset : Nat} {text : List Char} {ts : List Token}
    (h : Row offset text ts) (before : List Char) (hoffset : offset = Text.byteLength before)
    (stack : List Shape) :
    verdictFrom .outside (stack.map Shape.opening) before.length text =
      judge (before ++ text) (openAfter stack ts) := by
  induction h generalizing before stack with
  | done offset => cases stack <;> rfl
  | @skip offset piece rest ts hpiece _ ih =>
      rw [verdictFrom_plain hpiece, ← List.length_append, ← List.append_assoc]
      exact ih _ (by rw [hoffset, Text.byteLength_append]) stack
  | @token kind offset piece rest ts hpiece _ ih =>
      have hmid : offset + Text.byteLength piece = Text.byteLength (before ++ piece) := by
        rw [hoffset, Text.byteLength_append]
      have hmore := ih _ hmid
      rw [List.length_append, List.append_assoc] at hmore
      cases hpiece with
      | @opening kind shape h =>
          rw [List.singleton_append, verdictFrom_opening, openAfter_opening h]
          exact hmore (shape :: stack)
      | @closing kind shape hopens h =>
          rw [List.singleton_append, verdictFrom_closing, openAfter_closing hopens h]
          split
          · exact hmore stack.tail
          · rw [judge, hoffset, Text.beforeByte_byteLength]
      | @string s piece h =>
          rw [verdictFrom_passes h, openAfter_other rfl rfl]
          exact hmore stack
      | @plain kind piece hopens hcloses _ h =>
          rw [verdictFrom_plain h, openAfter_other hopens hcloses]
          exact hmore stack

/-! ## Brackets of a text -/

/-- A text whose tokens end with it and whose comment signs all stand in its
strings is a row. -/
theorem row_of_tokenize {source : String} {ts : List Token} (h : Token.tokenize source = .ok ts)
    (hcomment : ∀ before after, source.toList = before ++ ';' :: after →
      InString ts (Text.byteLength before)) : Row 0 source.toList ts := by
  obtain ⟨stop, hcut⟩ := Token.scan_eq_ok_iff.mp h
  refine row_of_cut (· == ';') ?_ hcut rfl ?_
  · intro piece hmatch hplain
    rcases Token.Regex.matches_either_iff.mp hmatch with hseparators | hcomments
    · intro c hc
      exact isDelimiter_of_isSeparator ((Token.Regex.matches_plus_one_iff.mp hseparators).2 c hc)
    · obtain ⟨u, v, rfl, hsign, -⟩ := Token.Regex.matches_seq_iff.mp hcomments
      cases Token.Regex.matches_char_iff.mp hsign
      exact absurd (hplain ';' (by simp)) (by decide)
  · intro before c after htext hc
    cases beq_iff_eq.mp hc
    rw [Nat.zero_add]
    exact (hcomment before after htext).inToken

/-- On a text whose comment signs all stand in strings the scan and the lexer
see the same: the scan is inside a string exactly inside the string tokens,
and its verdict is what pushing the opening and popping the closing brackets
among the tokens comes to, places counted in characters. -/
theorem verdict_eq_judge {source : String} {ts : List Token} (h : Token.tokenize source = .ok ts)
    (hcomment : ∀ before after, source.toList = before ++ ';' :: after →
      InString ts (Text.byteLength before)) :
    (∀ before c after, source.toList = before ++ c :: after →
      (((Quoting.outside.after before).feed c).1 = true ↔
        InString ts (Text.byteLength before))) ∧
    Quoting.outside.after source.toList = .outside ∧
    verdict source.toList = judge source.toList (openAfter [] ts) := by
  have hrow := row_of_tokenize h hcomment
  refine ⟨fun before c after htext => ?_, hrow.after_eq, ?_⟩
  · have hplace := hrow.feed_iff htext
    rwa [Nat.zero_add] at hplace
  · exact hrow.verdictFrom_eq [] rfl []

/-- A closing bracket is placed by the characters before it, of which one takes
two bytes. -/
theorem verdict_eq_judge_accent : ∃ ts, Token.tokenize "\"é;\")" = .ok ts ∧
    (∀ before after, "\"é;\")".toList = before ++ ';' :: after →
      InString ts (Text.byteLength before)) ∧
    (∀ before c after, "\"é;\")".toList = before ++ c :: after →
      (((Quoting.outside.after before).feed c).1 = true ↔
        InString ts (Text.byteLength before))) ∧
    Quoting.outside.after "\"é;\")".toList = .outside ∧
    verdict "\"é;\")".toList = judge "\"é;\")".toList (openAfter [] ts) ∧
    judge "\"é;\")".toList (openAfter [] ts) = .invalid ')' 4 := by
  have htokens : Token.tokenize "\"é;\")" =
      .ok [⟨.string "é;", ⟨0, 5⟩⟩, ⟨.rightParen, ⟨5, 6⟩⟩] := by
    with_unfolding_all rfl
  have hcomment (before after : List Char) (h : "\"é;\")".toList = before ++ ';' :: after) :
      InString [⟨.string "é;", ⟨0, 5⟩⟩, ⟨.rightParen, ⟨5, 6⟩⟩] (Text.byteLength before) := by
    have htext : "\"é;\")".toList = ['"', 'é', ';', '"', ')'] := rfl
    rw [htext] at h
    rcases before with _ | ⟨a, _ | ⟨b, _ | ⟨c, _ | ⟨d, _ | ⟨e, more⟩⟩⟩⟩⟩ <;> simp at h
    obtain ⟨rfl, rfl, -⟩ := h
    exact ⟨_, List.mem_singleton_self _, by decide, by decide⟩
  obtain ⟨hflags, hend, hverdict⟩ := verdict_eq_judge htokens hcomment
  exact ⟨_, htokens, hcomment, hflags, hend, hverdict, by decide⟩

/-- A text that is read as a form is valid, if no comment in it holds a bracket
or a quote: all of these stand inside tokens. -/
theorem verdict_of_read {source : String} {form : Value} (hread : Reader.read source = .ok form)
    (hinside : ∀ ts, Token.tokenize source = .ok ts → ∀ before c after,
      source.toList = before ++ c :: after → isDelimiter c = true →
        InToken ts (Text.byteLength before)) :
    verdict source.toList = .valid := by
  obtain ⟨ts, htokens, hderives⟩ := Reader.read_eq_ok_iff.mp hread
  obtain ⟨stop, hcut⟩ := Token.scan_eq_ok_iff.mp htokens
  have hrow : Row 0 source.toList ts := by
    refine row_of_cut isDelimiter (fun _ _ hplain => hplain) hcut rfl ?_
    intro before c after htext hc
    rw [Nat.zero_add]
    exact hinside ts htokens before c after htext hc
  have hopen := openAfter_derives hderives [] []
  rw [List.append_nil] at hopen
  calc verdict source.toList
      _ = judge source.toList (openAfter [] ts) := hrow.verdictFrom_eq [] rfl []
      _ = .valid := by rw [hopen]; rfl

/-- Quotes and brackets stand next to each other. -/
theorem verdict_of_read_adjacent : ∃ form, Reader.read "[\"(\"]" = .ok form ∧
    (∀ ts, Token.tokenize "[\"(\"]" = .ok ts → ∀ before c after,
      "[\"(\"]".toList = before ++ c :: after → isDelimiter c = true →
        InToken ts (Text.byteLength before)) ∧
    verdict "[\"(\"]".toList = .valid := by
  have hread : Reader.read "[\"(\"]" = .ok (.vector [.string "("]) := by
    with_unfolding_all rfl
  have htokens : Token.tokenize "[\"(\"]" =
      .ok [⟨.leftBracket, ⟨0, 1⟩⟩, ⟨.string "(", ⟨1, 4⟩⟩, ⟨.rightBracket, ⟨4, 5⟩⟩] := by
    with_unfolding_all rfl
  have hinside (ts) (h : Token.tokenize "[\"(\"]" = .ok ts) (before c after)
      (htext : "[\"(\"]".toList = before ++ c :: after) (_ : isDelimiter c = true) :
      InToken ts (Text.byteLength before) := by
    cases htokens.symm.trans h
    have hplace := byteLength_before_lt htext
    rw [show Text.byteLength "[\"(\"]".toList = 5 from rfl] at hplace
    by_cases hfirst : Text.byteLength before < 1
    · exact ⟨_, .head _, Nat.zero_le _, hfirst⟩
    · by_cases hsecond : Text.byteLength before < 4
      · exact ⟨_, .tail _ (.head _), by simp only; omega, hsecond⟩
      · exact ⟨_, .tail _ (.tail _ (.head _)), by simp only; omega, hplace⟩
  exact ⟨_, hread, hinside, verdict_of_read hread hinside⟩

/-- A closing bracket in a comment is nothing to the reader and wrong to the
scan. -/
theorem not_valid_of_read_comment : ∃ form, Reader.read "1 ; )" = .ok form ∧
    verdict "1 ; )".toList = .invalid ')' 4 := by
  have hread : Reader.read "1 ; )" = .ok (.integer 1) := by
    with_unfolding_all rfl
  exact ⟨_, hread, by decide⟩

end LazyLisp.Brackets
