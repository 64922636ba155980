import LazyLisp.Proofs.Lexing.MaximalMunch

/-!
# Words and what ends them

Numbers, booleans and symbols are words: they consist of the characters that
may stand in a symbol.  A word goes on as long as such characters follow, so
that it is munched as a whole exactly where something else follows it: a
blank, a bracket or the end of the text.  Separators likewise are munched as far
as they go, and brackets need no such care, since no longer piece begins with
them.

This is what a printer has to know about the lexer.

## Main results

* `munches_of_not_matches` — a piece is munched where no pattern goes on.
* `munches_word` — a word is munched as a whole where it ends.
* `munches_separators` — so are separators.
* `munches_bracket` — a bracket always is.
* `integerValue_repr` — an integer's decimal digits have its value.
-/

namespace LazyLisp.Token

open Regex

/-! ## Characters of words -/

/-- Whether the pieces of the pattern are words. -/
def Pattern.isWord (p : Pattern) : Bool := p == .symbol || p.beatsSymbol

/-- No word goes on with the beginning of this text. -/
def EndsWord (rest : List Char) : Prop := ∀ c ∈ rest.head?, continuesSymbol c = false

theorem EndsWord.nil : EndsWord [] := by
  simp [EndsWord]

/-- A word ends before a character that cannot go on. -/
theorem EndsWord.cons {c : Char} (h : continuesSymbol c = false) (rest : List Char) :
    EndsWord (c :: rest) := by
  simpa [EndsWord] using h

theorem continuesSymbol_of_isDigit {c : Char} (h : isDigit c = true) :
    continuesSymbol c = true := by
  simp [continuesSymbol, h]

/-- No separator continues a symbol. -/
theorem isSeparator_of_continuesSymbol {c : Char} (h : continuesSymbol c = true) :
    isSeparator c = false := by
  cases hsep : isSeparator c with
  | false => rfl
  | true =>
      simp only [isSeparator, Bool.or_eq_true, beq_iff_eq] at hsep
      rcases hsep with ((rfl | rfl) | rfl) | rfl <;> exact absurd h (by decide)

private theorem continuesSymbol_of_integer {w : List Char} (h : integerRegex.Matches w) :
    ∀ c ∈ w, continuesSymbol c = true := by
  obtain ⟨digits, hw, -, hall⟩ := matches_integer_iff.mp h
  have hdigits : ∀ c ∈ digits, continuesSymbol c = true :=
    fun c hc => continuesSymbol_of_isDigit (hall c hc)
  rcases hw with rfl | rfl
  · exact hdigits
  · exact List.forall_mem_cons.mpr ⟨by decide, hdigits⟩

/-- A word consists of the characters that may stand in a symbol. -/
theorem continuesSymbol_of_matches {p : Pattern} {w : List Char} (hp : p.isWord = true)
    (h : p.regex.Matches w) : ∀ c ∈ w, continuesSymbol c = true := by
  cases p with
  | boolean b =>
      cases matches_word_iff.mp h
      have hall : (Pattern.booleanWord b).all continuesSymbol = true := by cases b <;> decide
      exact List.all_eq_true.mp hall
  | integer => exact continuesSymbol_of_integer h
  | float =>
      obtain ⟨whole, fraction, rfl, hwhole, hfraction⟩ := matches_seq_iff.mp h
      obtain ⟨point, digits, rfl, hpoint, hdigits⟩ := matches_seq_iff.mp hfraction
      cases matches_char_iff.mp hpoint
      have hall := (matches_plus_one_iff.mp hdigits).2
      refine List.forall_mem_append.mpr ⟨continuesSymbol_of_integer hwhole, ?_⟩
      exact List.forall_mem_cons.mpr
        ⟨by decide, fun c hc => continuesSymbol_of_isDigit (hall c hc)⟩
  | symbol =>
      obtain ⟨u, v, rfl, hu, hv⟩ := matches_seq_iff.mp h
      obtain ⟨c, rfl, hc⟩ := matches_one_iff.mp hu
      refine List.forall_mem_cons.mpr ⟨?_, matches_many_one_iff.mp hv⟩
      simp [continuesSymbol, hc]
  | _ => cases hp

/-- Only a word begins with a character that may stand in a symbol. -/
theorem Pattern.isWord_of_opens {p : Pattern} {c : Char} (h : p.opens c = true)
    (hc : continuesSymbol c = true) : p.isWord = true := by
  cases p with
  | boolean | integer | float | symbol => rfl
  | separators =>
      have hsep := isSeparator_of_continuesSymbol hc
      rw [show isSeparator c = true from h] at hsep
      cases hsep
  | _ =>
      cases beq_iff_eq.mp h
      exact absurd hc (by decide)

/-! ## What is munched -/

/-- A piece is munched if no pattern goes on over the character behind it. -/
theorem munches_of_not_matches {p : Pattern} {piece rest : List Char}
    (hmatch : p.regex.Matches piece)
    (hwins : p = .symbol → ∀ q : Pattern, q.beatsSymbol = true → ¬ q.regex.Matches piece)
    (hlonger : ∀ (q : Pattern) (more : List Char), ∀ d ∈ rest.head?,
      ¬ q.regex.Matches (piece ++ d :: more)) : p.Munches piece (piece ++ rest) := by
  refine ⟨List.prefix_append _ _, hmatch, ?_, hwins⟩
  rintro q w ⟨tail, hw⟩ hq
  rcases List.append_eq_append_iff.mp hw with ⟨more, hpiece, -⟩ | ⟨more, hword, hrest⟩
  · simp [hpiece]
  · cases more with
    | nil => simp [hword]
    | cons d more =>
        rw [hword] at hq
        exact absurd hq (hlonger q more d (by simp [hrest]))

/-- A piece is munched if what may begin like it stays within a class of
characters, and another character follows. -/
theorem munches_of_class {p : Pattern} {within : Char → Bool} {piece rest : List Char}
    (hmatch : p.regex.Matches piece)
    (hwins : p = .symbol → ∀ q : Pattern, q.beatsSymbol = true → ¬ q.regex.Matches piece)
    (hwithin : ∀ (q : Pattern) (w : List Char), q.regex.Matches w → w.head? = piece.head? →
      ∀ c ∈ w, within c = true)
    (hrest : ∀ c ∈ rest.head?, within c = false) : p.Munches piece (piece ++ rest) := by
  refine munches_of_not_matches hmatch hwins fun q more d hd hq => ?_
  obtain ⟨c, others, rfl, -⟩ := Pattern.opens_of_matches hmatch
  have hin := hwithin q _ hq rfl d (by simp)
  rw [hrest d hd] at hin
  cases hin

/-- A word is munched as a whole where it ends. -/
theorem munches_word {p : Pattern} {piece rest : List Char} (hp : p.isWord = true)
    (hmatch : p.regex.Matches piece)
    (hwins : p = .symbol → ∀ q : Pattern, q.beatsSymbol = true → ¬ q.regex.Matches piece)
    (hrest : EndsWord rest) : p.Munches piece (piece ++ rest) := by
  refine munches_of_class hmatch hwins (fun q w hq hhead => ?_) hrest
  obtain ⟨c, more, rfl, -⟩ := Pattern.opens_of_matches hmatch
  obtain ⟨d, others, rfl, hopens⟩ := Pattern.opens_of_matches hq
  cases hhead
  have hc := continuesSymbol_of_matches hp hmatch c (by simp)
  exact continuesSymbol_of_matches (Pattern.isWord_of_opens hopens hc) hq

/-- Nothing but separators begins with a separator. -/
theorem Pattern.eq_separators_of_opens {p : Pattern} {c : Char} (h : p.opens c = true)
    (hc : isSeparator c = true) : p = .separators := by
  have honly {d : Char} (hd : ∀ q ∈ Pattern.all, q.opens d = true → q = .separators)
      (h : p.opens d = true) : p = .separators := hd p p.mem_all h
  simp only [isSeparator, Bool.or_eq_true, beq_iff_eq] at hc
  rcases hc with ((rfl | rfl) | rfl) | rfl <;> exact honly (by decide) h

/-- Separators are munched as far as they go. -/
theorem munches_separators {piece rest : List Char} (hne : piece ≠ [])
    (hall : ∀ c ∈ piece, isSeparator c = true) (hrest : ∀ c ∈ rest.head?, isSeparator c = false) :
    Pattern.separators.Munches piece (piece ++ rest) := by
  have hmatch : (Pattern.regex .separators).Matches piece := matches_plus_one_iff.mpr ⟨hne, hall⟩
  refine munches_of_class hmatch (fun h => by cases h) (fun q w hq hhead => ?_) hrest
  obtain ⟨d, others, rfl, hopens⟩ := Pattern.opens_of_matches hq
  have hd := hall d (List.mem_of_head? hhead.symm)
  cases Pattern.eq_separators_of_opens hopens hd
  exact (matches_plus_one_iff.mp hq).2

/-- The pattern matches one bracket, no other pattern begins with it, and it
spells a token of this kind. -/
structure IsBracket (p : Pattern) (c : Char) (kind : Kind) : Prop where
  regex : p.regex = char c
  only : ∀ q ∈ Pattern.all, q.opens c = true → q = p
  endsWord : continuesSymbol c = false
  spells : ofPiece p [c] = .ok (some kind)

theorem isBracket_leftParen : IsBracket .leftParen '(' .leftParen :=
  ⟨rfl, by decide, by decide, rfl⟩

theorem isBracket_rightParen : IsBracket .rightParen ')' .rightParen :=
  ⟨rfl, by decide, by decide, rfl⟩

theorem isBracket_leftBracket : IsBracket .leftBracket '[' .leftBracket :=
  ⟨rfl, by decide, by decide, rfl⟩

theorem isBracket_rightBracket : IsBracket .rightBracket ']' .rightBracket :=
  ⟨rfl, by decide, by decide, rfl⟩

/-- A bracket is munched alone, whatever follows it. -/
theorem munches_bracket {p : Pattern} {c : Char} {kind : Kind} (h : IsBracket p c kind)
    (rest : List Char) : p.Munches [c] ([c] ++ rest) := by
  have hregex := h.regex
  refine munches_of_not_matches (hregex ▸ matches_char_iff.mpr rfl) ?_ ?_
  · rintro rfl
    cases hregex
  · intro q more d _ hq
    obtain ⟨_, _, hsplit, hopens⟩ := Pattern.opens_of_matches hq
    cases hsplit
    rw [h.only q q.mem_all hopens, hregex] at hq
    cases matches_char_iff.mp hq

/-! ## Symbols -/

/-- The word is a symbol: it matches the pattern of symbols and is no number
and no boolean. -/
structure IsSymbol (w : List Char) : Prop where
  matched : (Pattern.regex .symbol).Matches w
  wins : ∀ q : Pattern, q.beatsSymbol = true → ¬ q.regex.Matches w

/-- A word that the scanner reads as a whole by the pattern of symbols is a
symbol. -/
theorem isSymbol_of_longest {w : List Char} (h : longest w = (.symbol, w.length)) (hne : w ≠ []) :
    IsSymbol w := by
  have hmunches : Pattern.symbol.Munches w w := by
    refine munches_iff.mpr ?_
    rw [h]
    exact ⟨List.length_pos_iff.mpr hne, rfl, List.take_length.symm⟩
  exact ⟨hmunches.matched, hmunches.wins rfl⟩

/-- A symbol comes from its own pattern and is spelled as it is called. -/
theorem ofPiece_eq_symbol {p : Pattern} {piece : List Char} {name : String}
    (h : ofPiece p piece = .ok (some (.symbol name))) : p = .symbol ∧ name.toList = piece := by
  cases p with
  | symbol =>
      cases h
      exact ⟨rfl, String.toList_ofList⟩
  | integer =>
      simp only [ofPiece] at h
      split at h <;> cases h
  | string =>
      simp only [ofPiece] at h
      cases hvalue : stringValue piece <;> rw [hvalue] at h <;> cases h
  | _ => cases h

/-- The names among the tokens of a text are symbols. -/
theorem Cut.isSymbol {offset stop : Nat} {text left : List Char} {ts : List Token}
    (h : Cut offset text ts stop left) :
    ∀ t ∈ ts, ∀ name, t.kind = .symbol name → IsSymbol name.toList := by
  induction h with
  | done => simp
  | skip _ _ _ ih => exact ih
  | token hpiece htoken _ ih =>
      refine List.forall_mem_cons.mpr ⟨?_, ih⟩
      rintro name rfl
      obtain ⟨rfl, rfl⟩ := ofPiece_eq_symbol htoken
      exact ⟨hpiece.matched, hpiece.wins rfl⟩

/-! ## The digits of an integer -/

theorem isDigit_of_mem_toDigits {n : Nat} {c : Char} (h : c ∈ Nat.toDigits 10 n) :
    isDigit c = true :=
  Nat.isDigit_of_mem_toDigits (by decide) (by decide) h

/-- The decimal digits of a number are read as that number. -/
theorem naturalValue_toDigits (n : Nat) : naturalValue (Nat.toDigits 10 n) = n :=
  Nat.ofDigitChars_toDigits (by decide) (by decide)

/-- The decimal text of an integer: a minus sign if it is negative, and the
digits. -/
theorem toList_repr (n : Int) :
    (n.repr).toList = if 0 ≤ n then Nat.toDigits 10 n.toNat
      else '-' :: Nat.toDigits 10 (-n).toNat := by
  rw [Int.repr_eq_if]
  split
  · exact Nat.toList_repr
  · rw [String.toList_append, Nat.toList_repr]
    rfl

/-- An integer as it is printed is an integer of the language. -/
theorem matches_repr (n : Int) : integerRegex.Matches n.repr.toList := by
  have hall (m : Nat) : ∀ c ∈ Nat.toDigits 10 m, isDigit c = true :=
    fun c hc => isDigit_of_mem_toDigits hc
  rw [toList_repr]
  split
  · exact matches_integer_iff.mpr ⟨_, .inl rfl, Nat.toDigits_ne_nil, hall _⟩
  · exact matches_integer_iff.mpr ⟨_, .inr rfl, Nat.toDigits_ne_nil, hall _⟩

/-- An integer as it is printed is read as itself. -/
theorem integerValue_repr (n : Int) : integerValue n.repr.toList = n := by
  rw [toList_repr]
  split
  · have hminus (rest : List Char) : Nat.toDigits 10 n.toNat ≠ '-' :: rest := by
      intro h
      have hdigit := isDigit_of_mem_toDigits (h ▸ List.mem_cons_self)
      rw [isDigit_minus] at hdigit
      cases hdigit
    have hunsigned : unsigned (Nat.toDigits 10 n.toNat) = (false, Nat.toDigits 10 n.toNat) := by
      rw [unsigned]
      exact hminus
    simp only [integerValue, hunsigned, naturalValue_toDigits]
    simpa using Int.toNat_of_nonneg ‹_›
  · simp only [integerValue, unsigned, naturalValue_toDigits, if_true]
    omega

end LazyLisp.Token
