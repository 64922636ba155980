import LazyLisp.Proofs.Lexing.Strings
import LazyLisp.Proofs.Lexing.Words

/-!
# Looking one character ahead

The longest match at a place depends on the text behind it, and in principle on
all of it.  In fact one character decides: a piece ends where no pattern takes
it together with the next character.  The reason is that a longer match would
not come out of nothing.  If a pattern matches some text, then the beginnings of
that text are matched too, if not by the same pattern then as a symbol or as an
integer.  The one exception is the beginning of a float that breaks off behind
the point, which is why a point after an integer is not enough to tell.

So a text that is cut up to some place is cut in the same way when something
else is put in the place of what is left, as long as it begins with the same
character and that is no point.

## Main results

* `exists_matches_of_append` — the beginnings of a match are matched.
* `munches_of_stops` — a piece is munched where the next character stops it.
* `Cut.of_head` — what is left of a text may be exchanged.
* `exists_last_symbol` — the last symbol of a text may be made longer.
-/

namespace LazyLisp.Token

open Regex

section Prefix

variable {u v w : List Char}

/-- A word that begins like a symbol matches its pattern. -/
theorem matches_symbol_of_starts {p : Pattern} {c : Char} {rest : List Char}
    (hp : p.isWord = true) (h : p.regex.Matches (c :: rest)) (hc : startsSymbol c = true) :
    (Pattern.regex .symbol).Matches (c :: rest) := by
  have hall := continuesSymbol_of_matches hp h
  refine .seq (u := [c]) (.one hc) (matches_many_one_iff.mpr ?_)
  exact fun d hd => hall d (List.mem_cons_of_mem c hd)

/-- The beginnings of a match of one character and a run are matches. -/
theorem matches_one_many_of_append {q p : Char → Bool}
    (h : (seq (one q) (many (one p))).Matches (u ++ v)) (hne : u ≠ []) :
    (seq (one q) (many (one p))).Matches u := by
  obtain ⟨a, rest, hsplit, ha, hrest⟩ := matches_seq_iff.mp h
  obtain ⟨c, rfl, hc⟩ := matches_one_iff.mp ha
  cases u with
  | nil => exact absurd rfl hne
  | cons d more =>
      obtain ⟨rfl, rfl⟩ := List.cons.inj hsplit
      refine .seq (u := [d]) (.one hc) (matches_many_one_iff.mpr ?_)
      exact fun e he => matches_many_one_iff.mp hrest e (List.mem_append_left v he)

/-- An integer that does not begin like a symbol has no sign. -/
theorem isDigit_of_integer {c : Char} {rest : List Char} (h : integerRegex.Matches (c :: rest))
    (hc : startsSymbol c ≠ true) : ∀ d ∈ c :: rest, isDigit d = true := by
  obtain ⟨digits, hdigits | hsign, -, hall⟩ := matches_integer_iff.mp h
  · rwa [hdigits]
  · cases hsign
    exact absurd (by decide) hc

/-- Digits alone are an integer. -/
theorem matches_integer_of_digits (hne : w ≠ []) (hall : ∀ c ∈ w, isDigit c = true) :
    (Pattern.regex .integer).Matches w :=
  matches_integer_iff.mpr ⟨w, .inl rfl, hne, hall⟩

/-- The beginnings of a float without a sign are integers or floats, or end in
the point. -/
theorem exists_matches_of_float {c : Char} {cs : List Char}
    (h : (Pattern.regex .float).Matches (c :: cs ++ v)) (hc : startsSymbol c ≠ true)
    (hpoint : (c :: cs).getLast? ≠ some '.') : ∃ p : Pattern, p.regex.Matches (c :: cs) := by
  obtain ⟨whole, fraction, hsplit, hwhole, hfraction⟩ := matches_seq_iff.mp h
  obtain ⟨point, digits, rfl, hchar, hdigits⟩ := matches_seq_iff.mp hfraction
  cases matches_char_iff.mp hchar
  have hall : ∀ d ∈ whole, isDigit d = true := by
    obtain ⟨d, rest, rfl, -⟩ := Pattern.opens_of_matches (p := .integer) hwhole
    obtain ⟨rfl, -⟩ := List.cons.inj hsplit
    exact isDigit_of_integer hwhole hc
  rcases List.append_eq_append_iff.mp hsplit with ⟨more, hlonger, -⟩ | ⟨more, hshorter, hrest⟩
  · refine ⟨.integer, matches_integer_of_digits (List.cons_ne_nil c cs) fun d hd => hall d ?_⟩
    rw [hlonger]
    exact List.mem_append_left more hd
  · cases more with
    | nil =>
        rw [List.append_nil] at hshorter
        exact ⟨.integer, hshorter ▸ hwhole⟩
    | cons d more =>
        obtain ⟨rfl, hmore⟩ := List.cons.inj hrest
        have hdigits' : digits = more ++ v := hmore
        by_cases hnil : more = []
        · rw [hshorter, hnil, List.getLast?_concat] at hpoint
          exact absurd rfl hpoint
        · have hpart : ∀ d ∈ more, isDigit d = true := fun d hd =>
            (matches_plus_one_iff.mp hdigits).2 d (hdigits' ▸ List.mem_append_left v hd)
          rw [hshorter]
          exact ⟨.float, .seq hwhole
            (.seq (u := ['.']) hchar (matches_plus_one_iff.mpr ⟨hnil, hpart⟩))⟩

/-- The beginnings of a string literal are matched, closed or not. -/
theorem matches_string_of_append {c : Char} {cs : List Char}
    (h : (Pattern.regex .string).Matches (c :: cs ++ v)) :
    (Pattern.regex .string).Matches (c :: cs) := by
  obtain ⟨a, more, hsplit, hquote, hrest⟩ := matches_seq_iff.mp h
  cases matches_char_iff.mp hquote
  obtain ⟨rfl, htail⟩ := List.cons.inj hsplit
  have hmore : cs ++ v = more := htail
  subst hmore
  obtain ⟨body, left, rfl, hbody, hleft⟩ := exists_body cs
  have hlongest := (measures_stringRest _).longest _ [] (List.append_nil _).symm hrest
  rw [List.append_assoc, bodyReach_units hbody, List.length_append] at hlongest
  have htake : left.take 1 = left := by
    cases hleft with
    | textEnd | backslash => rfl
    | quote after =>
        have hreach : bodyReach ('"' :: after ++ v) = 1 := rfl
        simp only [hreach, List.length_append, List.length_cons] at hlongest
        have hnil : after = [] := List.length_eq_zero_iff.mp (by omega)
        rw [hnil]
        rfl
    | lineFeed after =>
        have hreach : bodyReach ('\\' :: '\n' :: after ++ v) = 1 := rfl
        simp only [hreach, List.length_append, List.length_cons] at hlongest
        omega
  have hmatched := (munches_string hbody hleft).matched
  rwa [spelling, htake] at hmatched

/-- The beginnings of a match are matched, unless they end in a point. -/
theorem exists_matches_of_append {q : Pattern} (h : q.regex.Matches (u ++ v)) (hne : u ≠ [])
    (hpoint : u.getLast? ≠ some '.') : ∃ p : Pattern, p.regex.Matches u := by
  cases hu : u with
  | nil => exact absurd hu hne
  | cons c cs =>
      rw [hu] at h hne hpoint
      by_cases hsymbol : q.isWord = true ∧ startsSymbol c = true
      · have hmatched := matches_symbol_of_starts hsymbol.1 h hsymbol.2
        exact ⟨.symbol, matches_one_many_of_append hmatched hne⟩
      · have hc (hq : q.isWord = true) : startsSymbol c ≠ true := fun hc => hsymbol ⟨hq, hc⟩
        cases q with
        | separators =>
            have hall := (matches_plus_one_iff.mp h).2
            exact ⟨.separators, matches_plus_one_iff.mpr
              ⟨hne, fun d hd => hall d (List.mem_append_left v hd)⟩⟩
        | comment => exact ⟨.comment, matches_one_many_of_append h hne⟩
        | leftParen | rightParen | leftBracket | rightBracket =>
            have hnil := (List.cons.inj (matches_char_iff.mp h)).2
            obtain ⟨rfl, rfl⟩ := List.append_eq_nil_iff.mp hnil
            exact ⟨_, h⟩
        | boolean b =>
            obtain ⟨d, rest, hd, hopens⟩ := Pattern.opens_of_matches h
            obtain ⟨rfl, -⟩ := List.cons.inj hd
            have hword : c = 't' ∨ c = 'f' := by
              cases b
              · exact .inr (beq_iff_eq.mp hopens)
              · exact .inl (beq_iff_eq.mp hopens)
            rcases hword with rfl | rfl <;> exact absurd (by decide) (hc rfl)
        | integer =>
            have hall := isDigit_of_integer h (hc rfl)
            exact ⟨.integer, matches_integer_of_digits hne
              fun d hd => hall d (List.mem_append_left v hd)⟩
        | float => exact exists_matches_of_float h (hc rfl) hpoint
        | symbol => exact ⟨.symbol, matches_one_many_of_append h hne⟩
        | string => exact ⟨.string, matches_string_of_append h⟩

end Prefix

/-! ## Pieces and what follows them -/

section Munches

variable {p : Pattern} {piece rest rest' : List Char}

/-- A piece is munched if no pattern takes it together with the next
character, and that is no point. -/
theorem munches_of_stops (hmatch : p.regex.Matches piece)
    (hwins : p = .symbol → ∀ q : Pattern, q.beatsSymbol = true → ¬ q.regex.Matches piece)
    (hstops : ∀ d ∈ rest.head?, d ≠ '.' ∧ ∀ q : Pattern, ¬ q.regex.Matches (piece ++ [d])) :
    p.Munches piece (piece ++ rest) := by
  refine munches_of_not_matches hmatch hwins fun q more d hd hq => ?_
  -- the piece and the next character would be matched already
  obtain ⟨hpoint, hnone⟩ := hstops d hd
  have hsplit : piece ++ d :: more = (piece ++ [d]) ++ more := by simp
  rw [hsplit] at hq
  have hlast : (piece ++ [d]).getLast? ≠ some '.' := by
    simpa [List.getLast?_concat] using hpoint
  obtain ⟨q', hq'⟩ := exists_matches_of_append hq (by simp) hlast
  exact hnone q' hq'

/-- Whether a piece is munched depends on the next character, unless that is a
point. -/
theorem Pattern.Munches.of_head (h : p.Munches piece (piece ++ rest))
    (hhead : rest'.head? = rest.head?) (hpoint : rest.head? ≠ some '.') :
    p.Munches piece (piece ++ rest') := by
  refine munches_of_stops h.matched h.wins fun d hd => ?_
  rw [hhead] at hd
  refine ⟨fun hd' => hpoint (hd' ▸ hd), fun q hq => ?_⟩
  obtain ⟨tail, rfl⟩ := List.head?_eq_some_iff.mp hd
  have hlonger := h.longest q (piece ++ [d]) ⟨tail, by simp⟩ hq
  rw [List.length_append, List.length_singleton] at hlonger
  omega

/-- No piece begins with a point. -/
theorem Pattern.Munches.head_ne_point (h : p.Munches piece (piece ++ rest)) :
    (piece ++ rest).head? ≠ some '.' := by
  obtain ⟨c, more, rfl, hopens⟩ := Pattern.opens_of_matches h.matched
  rintro ⟨⟩
  have hnone : ∀ q ∈ Pattern.all, q.opens '.' = false := by decide
  rw [hnone p p.mem_all] at hopens
  cases hopens

end Munches

/-- A text that is cut up to some place does not begin with a point, unless what
is left does. -/
theorem Cut.head_ne_point {offset stop : Nat} {text left : List Char} {ts : List Token}
    (h : Cut offset text ts stop left) (hleft : left.head? ≠ some '.') :
    text.head? ≠ some '.' := by
  cases h with
  | done => exact hleft
  | skip hpiece | token hpiece => exact hpiece.head_ne_point

/-- A text that is cut up to some place is cut in the same way if something else
that begins with the same character is left. -/
theorem Cut.of_head {offset stop : Nat} {text left left' : List Char} {ts : List Token}
    (h : Cut offset text ts stop left) (hhead : left'.head? = left.head?)
    (hpoint : left.head? ≠ some '.') :
    ∃ before, text = before ++ left ∧ Cut offset (before ++ left') ts stop left' := by
  have hsame (before : List Char) : (before ++ left').head? = (before ++ left).head? := by
    cases before with
    | nil => exact hhead
    | cons c more => rfl
  induction h with
  | done offset text => exact ⟨[], rfl, .done _ _⟩
  | @skip p _ _ piece _ _ _ hpiece hskip hrest ih =>
      obtain ⟨before, rfl, hcut⟩ := ih hhead hpoint hsame
      refine ⟨piece ++ before, (List.append_assoc _ _ _).symm, ?_⟩
      rw [List.append_assoc]
      exact .skip (hpiece.of_head (hsame before) (hrest.head_ne_point hpoint)) hskip hcut
  | @token p _ _ _ piece _ _ _ hpiece htoken hrest ih =>
      obtain ⟨before, rfl, hcut⟩ := ih hhead hpoint hsame
      refine ⟨piece ++ before, (List.append_assoc _ _ _).symm, ?_⟩
      rw [List.append_assoc]
      exact .token (hpiece.of_head (hsame before) (hrest.head_ne_point hpoint)) htoken hcut

/-- Only blanks and comments stand behind the last symbol of a text.  If a longer
symbol takes the place of all that, it is read there, and everything before it as
it was. -/
theorem exists_last_symbol {text : List Char} {ts : List Token} {typed : String} {span : Span}
    (h : scan 0 text = .ok (ts ++ [⟨.symbol typed, span⟩])) :
    ∃ before space, text = before ++ typed.toList ++ space ∧ gap.Matches space ∧
      span = ⟨Text.byteLength before, Text.byteLength (before ++ typed.toList)⟩ ∧
      ∀ name : String, IsSymbol name.toList → typed.toList <+: name.toList →
        scan 0 (before ++ name.toList) = .ok (ts ++ [⟨.symbol name,
          ⟨Text.byteLength before, Text.byteLength (before ++ name.toList)⟩⟩]) := by
  obtain ⟨stop, hcut⟩ := scan_eq_ok_iff.mp h
  obtain ⟨mid, between, hbefore, hlast⟩ := hcut.exists_split
  obtain ⟨p, piece, space, hgap, hpiece, htoken, hstop, hspace⟩ := hlast.exists_token
  obtain ⟨rfl, rfl⟩ := ofPiece_eq_symbol htoken
  have hall := hbefore.trans hgap
  rw [List.append_nil] at hall
  obtain ⟨before, htext, hstart⟩ := hall.exists_before
  obtain ⟨start, last⟩ := span
  simp only [Nat.zero_add] at hstart hstop
  subst hstart hstop
  refine ⟨before, space, by rw [htext, List.append_assoc], ?_, ?_, fun name hname hlonger => ?_⟩
  · cases hspace.laid rfl with
    | last hmatch => exact hmatch
  · rw [Text.byteLength_append]
  · have hsame : name.toList.head? = (typed.toList ++ space).head? := by
      obtain ⟨added, hadded⟩ := hlonger
      obtain ⟨c, cs, htyped⟩ := List.exists_cons_of_ne_nil hpiece.ne_nil
      rw [← hadded, htyped]
      rfl
    obtain ⟨before', htext', hexchanged⟩ := hall.of_head hsame hpiece.head_ne_point
    cases List.append_cancel_right (htext'.symm.trans htext)
    have hmunches : Pattern.symbol.Munches name.toList (name.toList ++ []) :=
      munches_word rfl hname.matched (fun _ => hname.wins) .nil
    have hword : ofPiece .symbol name.toList = .ok (some (.symbol name)) := by
      rw [ofPiece, String.ofList_toList]
    have hend : Cut (Text.byteLength before) _ _ _ [] := .token hmunches hword (.done _ _)
    rw [List.append_nil, ← Text.byteLength_append] at hend
    exact (hexchanged.trans hend).scan_end

end LazyLisp.Token
