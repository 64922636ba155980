import LazyLisp.Proofs.Lexing.Lookahead

/-!
# Texts one after the other

The longest match looks ahead, so that a text need not have the same tokens in
front of another one: a word goes on over the end of its text, and so does a
comment.  A line break between the two keeps them apart.  Only separators and
strings take in a line break.  Separators leave no token behind, however they
are divided into pieces, and a string that has a value was closed before.

Nothing is needed between the two parts of a text that has tokens if it is
divided where one of its tokens ends.

## Main results

* `Pattern.Munches.append_lineBreak` — a piece at the end of a text stays the
  longest in front of a line break.
* `scan_separators` — separators only move what follows them.
* `Cut.scan_append_lineBreak` — a text in front of a line break keeps its tokens.
* `tokenize_append` — the tokens of two texts one after the other.
-/

namespace LazyLisp.Token

open Regex

/-- Separators that begin with the end of a line. -/
structure IsLineBreak (w : List Char) : Prop where
  begins : w.head? = some '\n' ∨ w.head? = some '\r'
  blank : ∀ c ∈ w, isSeparator c = true

private theorem IsLineBreak.exists_cons {w : List Char} (h : IsLineBreak w) :
    ∃ c rest, w = c :: rest ∧ endsComment c = true := by
  rcases h.begins with hbegins | hbegins
  all_goals
    obtain ⟨rest, rfl⟩ := List.head?_eq_some_iff.mp hbegins
    exact ⟨_, rest, rfl, rfl⟩

/-! ## Line breaks behind a piece -/

section LineBreak

variable {p : Pattern} {piece w after rest : List Char} {c : Char}

private theorem isSeparator_of_endsComment (h : endsComment c = true) : isSeparator c = true := by
  simp only [endsComment, Bool.or_eq_true, beq_iff_eq] at h
  rcases h with rfl | rfl <;> decide

/-- Only separators and strings take in a line break. -/
theorem Pattern.of_lineBreak_mem (h : p.regex.Matches w) (hmem : c ∈ w)
    (hc : endsComment c = true) : p = .separators ∨ p = .string := by
  have hword : p.isWord = true → False := fun hp => by
    have hblank := isSeparator_of_continuesSymbol (continuesSymbol_of_matches hp h c hmem)
    rw [isSeparator_of_endsComment hc] at hblank
    cases hblank
  cases p with
  | separators => exact .inl rfl
  | string => exact .inr rfl
  | boolean | integer | float | symbol => exact (hword rfl).elim
  | comment =>
      obtain ⟨u, v, rfl, hu, hv⟩ := matches_seq_iff.mp h
      cases matches_char_iff.mp hu
      rcases List.mem_cons.mp hmem with rfl | hmem
      · cases hc
      · have hin := matches_many_one_iff.mp hv c hmem
        rw [hc] at hin
        cases hin
  | leftParen | rightParen | leftBracket | rightBracket =>
      cases matches_char_iff.mp h
      cases List.mem_singleton.mp hmem
      cases hc

/-- So no other piece goes on over one. -/
theorem not_matches_concat_lineBreak {q : Pattern} (h : p.regex.Matches piece)
    (hblank : p ≠ .separators) (hstring : p ≠ .string) (hc : endsComment c = true) :
    ¬ q.regex.Matches (piece ++ [c]) := by
  intro hq
  -- both patterns have the same first character
  obtain ⟨d, more, rfl, hopens⟩ := Pattern.opens_of_matches h
  obtain ⟨e, tail, heq, hopens'⟩ := Pattern.opens_of_matches hq
  cases heq
  rcases Pattern.of_lineBreak_mem hq (by simp) hc with rfl | rfl
  · exact hblank (Pattern.eq_separators_of_opens hopens hopens')
  · cases beq_iff_eq.mp hopens'
    exact hstring (Pattern.eq_string_of_opens hopens)

/-- A string that has a value is munched whatever follows it. -/
theorem munches_string_of_value {word : Option Kind} (h : (Pattern.regex .string).Matches piece)
    (hword : ofPiece .string piece = .ok word) (rest : List Char) :
    Pattern.string.Munches piece (piece ++ rest) := by
  cases hvalue : stringValue piece with
  | error fault =>
      rw [ofPiece, hvalue] at hword
      cases hword
  | ok s =>
      obtain ⟨body, rfl, hbody, -⟩ := exists_literal h hvalue
      exact munches_string hbody (.quote rest)

/-- A piece of a text stays the longest if a line break follows the text, unless
it is blank itself and the last one. -/
theorem Pattern.Munches.append_lineBreak {word : Option Kind} (h : p.Munches piece (piece ++ after))
    (hword : ofPiece p piece = .ok word) (hblank : after = [] → p ≠ .separators)
    (hpoint : after.head? ≠ some '.') (hc : endsComment c = true) :
    p.Munches piece (piece ++ (after ++ c :: rest)) := by
  cases after with
  | cons d more => exact h.of_head rfl hpoint
  | nil =>
      by_cases hstring : p = .string
      · subst hstring
        exact munches_string_of_value h.matched hword _
      · refine munches_of_stops h.matched h.wins ?_
        rintro d ⟨⟩
        refine ⟨?_, fun q => not_matches_concat_lineBreak h.matched (hblank rfl) hstring hc⟩
        rintro rfl
        cases hc

end LineBreak

/-! ## Separators -/

section Append

variable {offset stop : Nat} {text w left rest : List Char} {ts us : List Token} {c : Char}

/-- Separators in front of another character are one piece, and leave no token. -/
theorem scan_separators_of_ends (hw : ∀ c ∈ w, isSeparator c = true)
    (hrest : ∀ c ∈ rest.head?, isSeparator c = false) (offset : Nat) :
    scan offset (w ++ rest) = scan (offset + Text.byteLength w) rest := by
  by_cases hnil : w = []
  · rw [hnil]
    rfl
  · rw [scan_munches (munches_separators hnil hw hrest), ofPiece]

/-- Separators only move what follows them. -/
theorem scan_separators (hw : ∀ c ∈ w, isSeparator c = true) (offset : Nat) (rest : List Char) :
    scan offset (w ++ rest) = scan (offset + Text.byteLength w) rest := by
  -- if more of them follow, all are one piece
  obtain ⟨more, after, rfl, hmore, hafter⟩ : ∃ more after, rest = more ++ after ∧
      (∀ c ∈ more, isSeparator c = true) ∧ ∀ c ∈ after.head?, isSeparator c = false := by
    refine ⟨rest.takeWhile isSeparator, rest.dropWhile isSeparator,
      List.takeWhile_append_dropWhile.symm, List.all_eq_true.mp List.all_takeWhile, ?_⟩
    intro c hc
    have hnot := List.head?_dropWhile_not isSeparator rest
    rw [hc] at hnot
    simpa using hnot
  have hall : ∀ c ∈ w ++ more, isSeparator c = true := List.forall_mem_append.mpr ⟨hw, hmore⟩
  calc scan offset (w ++ (more ++ after))
      _ = scan offset ((w ++ more) ++ after) := by rw [List.append_assoc]
      _ = scan (offset + Text.byteLength (w ++ more)) after :=
          scan_separators_of_ends hall hafter offset
      _ = scan (offset + Text.byteLength w + Text.byteLength more) after := by
          rw [Text.byteLength_append, Nat.add_assoc]
      _ = scan (offset + Text.byteLength w) (more ++ after) :=
          (scan_separators_of_ends hmore hafter _).symm

/-! ## Texts -/

/-- A text in front of a line break keeps its tokens. -/
theorem Cut.scan_append_lineBreak (h : Cut offset text ts stop left) (hleft : left = [])
    (hc : endsComment c = true) :
    scan offset (text ++ c :: rest) = (scan stop (c :: rest)).map (ts ++ ·) := by
  have hpoint : left.head? ≠ some '.' := by simp [hleft]
  induction h with
  | done offset text =>
      rw [hleft, List.nil_append]
      cases scan offset (c :: rest) <;> rfl
  | @skip p offset stop piece after left ts hpiece hskip hrest ih =>
      by_cases hend : after = [] ∧ p = .separators
      · -- the piece runs on into the line break
        obtain ⟨rfl, rfl⟩ := hend
        have hall := (matches_plus_one_iff.mp hpiece.matched).2
        rw [List.append_assoc, scan_separators hall]
        exact ih hleft hpoint
      · have hmunches : p.Munches piece (piece ++ (after ++ c :: rest)) :=
          hpiece.append_lineBreak hskip (fun hnil hp => hend ⟨hnil, hp⟩)
            (hrest.head_ne_point hpoint) hc
        rw [List.append_assoc, scan_munches hmunches, hskip]
        exact ih hleft hpoint
  | @token p kind offset stop piece after left ts hpiece htoken hrest ih =>
      have hblank : p ≠ .separators := by
        rintro rfl
        cases htoken
      have hmunches : p.Munches piece (piece ++ (after ++ c :: rest)) :=
        hpiece.append_lineBreak htoken (fun _ => hblank) (hrest.head_ne_point hpoint) hc
      rw [List.append_assoc, scan_munches hmunches, htoken, ih hleft hpoint]
      cases scan stop (c :: rest) <;> rfl

/-- A text in front of separators that begin with the end of a line keeps its
tokens, and what follows is read as if it stood alone. -/
theorem scan_append_lineBreak (h : scan offset text = .ok ts) (hw : IsLineBreak w) :
    scan offset (text ++ w ++ rest) =
      (scan (offset + Text.byteLength (text ++ w)) rest).map (ts ++ ·) := by
  obtain ⟨stop, hcut⟩ := scan_eq_ok_iff.mp h
  obtain ⟨before, htext, rfl⟩ := hcut.exists_before
  rw [List.append_nil] at htext
  subst htext
  obtain ⟨c, more, rfl, hc⟩ := hw.exists_cons
  rw [List.append_assoc, List.cons_append, hcut.scan_append_lineBreak rfl hc, ← List.cons_append,
    scan_separators hw.blank, Text.byteLength_append, Nat.add_assoc]

/-- A text that has tokens can be divided where one of them ends. -/
theorem exists_scan_of_stop {t : Token} (h : scan offset (text ++ rest) = .ok (ts ++ t :: us))
    (hstop : t.span.stop = offset + Text.byteLength text) :
    scan offset text = .ok (ts ++ [t]) ∧ scan t.span.stop rest = .ok us := by
  obtain ⟨stop, hcut⟩ := scan_eq_ok_iff.mp h
  obtain ⟨mid, between, hbefore, hfrom⟩ := hcut.exists_split
  obtain ⟨p, piece, after, hgap, hpiece, htoken, hend, hafter⟩ := hfrom.exists_token
  have hupto := hbefore.trans (hgap.trans (.cons hpiece htoken hend (.done _ _)))
  obtain ⟨cs, htext, hcs⟩ := hupto.truncate
  -- the byte offset where the token ends names one place of the text
  obtain ⟨before, hall, hlength⟩ := hcs.exists_before
  rw [List.append_nil] at hall
  subst hall
  obtain ⟨rfl, rfl⟩ := Text.append_inj_of_byteLength htext (by omega)
  exact ⟨hcs.scan_end, hafter.scan_end⟩

end Append

/-- A text that has tokens keeps them in front of a line break and any other text;
behind them come the tokens or the error of the other text, moved by the bytes
before it.  And where one of its tokens ends such a text can be divided: both
parts have tokens, and the text has these, one after the other. -/
theorem tokenize_append :
    (∀ (a w b : String) (ts : List Token), tokenize a = .ok ts → IsLineBreak w.toList →
      tokenize (a ++ w ++ b) =
        (moved (Text.byteLength (a ++ w).toList) (tokenize b)).map (ts ++ ·)) ∧
    ∀ (a b : String) (vs : List Token) (t : Token), tokenize (a ++ b) = .ok vs → t ∈ vs →
      t.span.stop = Text.byteLength a.toList →
      ∃ ts us, tokenize a = .ok ts ∧ tokenize b = .ok us ∧ ts.getLast? = some t ∧
        vs = ts ++ us.map (Token.mapPlaces (Text.byteLength a.toList + ·)) := by
  refine ⟨fun a w b ts h hw => ?_, fun a b vs t h ht hstop => ?_⟩
  · have hjoined : scan 0 (a.toList ++ w.toList ++ b.toList) = _ := scan_append_lineBreak h hw
    rw [← String.toList_append, ← String.toList_append, Nat.zero_add] at hjoined
    have hshift := scan_add (Text.byteLength (a ++ w).toList) 0 b.toList
    rw [Nat.add_zero] at hshift
    rw [tokenize, hjoined, hshift, tokenize]
  · obtain ⟨ts, us, rfl⟩ := List.append_of_mem ht
    rw [tokenize, String.toList_append] at h
    obtain ⟨hfirst, hsecond⟩ := exists_scan_of_stop h (by omega)
    rw [hstop, ← Nat.add_zero (Text.byteLength _), scan_add] at hsecond
    cases hb : scan 0 b.toList with
    | error e =>
        rw [hb] at hsecond
        cases hsecond
    | ok us' =>
        rw [hb] at hsecond
        cases hsecond
        exact ⟨ts ++ [t], us', hfirst, hb, List.getLast?_concat, by simp⟩

/-- A text that ends in a comment, in front of a text with tokens and of one with
an error, and a text of two tokens with nothing between them. -/
theorem tokenize_append_comment :
    tokenize "(x \"é\n\" -5;c" = .ok [⟨.leftParen, ⟨0, 1⟩⟩, ⟨.symbol "x", ⟨1, 2⟩⟩,
      ⟨.string "é\n", ⟨3, 8⟩⟩, ⟨.integer (-5), ⟨9, 11⟩⟩] ∧
    IsLineBreak "\r\n ".toList ∧
    tokenize ("(x \"é\n\" -5;c" ++ "\r\n " ++ "y)") = .ok [⟨.leftParen, ⟨0, 1⟩⟩,
      ⟨.symbol "x", ⟨1, 2⟩⟩, ⟨.string "é\n", ⟨3, 8⟩⟩, ⟨.integer (-5), ⟨9, 11⟩⟩,
      ⟨.symbol "y", ⟨16, 17⟩⟩, ⟨.rightParen, ⟨17, 18⟩⟩] ∧
    tokenize ("(x \"é\n\" -5;c" ++ "\r\n " ++ "1.") = .error ⟨.invalidToken, ⟨17, 18⟩⟩ ∧
    tokenize ("5" ++ "-3") = .ok [⟨.integer 5, ⟨0, 1⟩⟩, ⟨.integer (-3), ⟨1, 3⟩⟩] ∧
    ∃ ts us, tokenize "5" = .ok ts ∧ tokenize "-3" = .ok us ∧
      ts.getLast? = some ⟨.integer 5, ⟨0, 1⟩⟩ ∧
      [⟨.integer 5, ⟨0, 1⟩⟩, ⟨.integer (-3), ⟨1, 3⟩⟩] =
        ts ++ us.map (Token.mapPlaces (Text.byteLength "5".toList + ·)) := by
  obtain ⟨hjoin, hdivide⟩ := tokenize_append
  have hfirst : tokenize "(x \"é\n\" -5;c" = .ok [⟨.leftParen, ⟨0, 1⟩⟩, ⟨.symbol "x", ⟨1, 2⟩⟩,
      ⟨.string "é\n", ⟨3, 8⟩⟩, ⟨.integer (-5), ⟨9, 11⟩⟩] := by
    with_unfolding_all rfl
  have hbreak : IsLineBreak "\r\n ".toList := ⟨.inr rfl, List.all_eq_true.mp rfl⟩
  have htokens : tokenize "y)" = .ok [⟨.symbol "y", ⟨0, 1⟩⟩, ⟨.rightParen, ⟨1, 2⟩⟩] := by
    with_unfolding_all rfl
  have herror : tokenize "1." = .error ⟨.invalidToken, ⟨1, 2⟩⟩ := by
    with_unfolding_all rfl
  have hminus : tokenize ("5" ++ "-3") =
      .ok [⟨.integer 5, ⟨0, 1⟩⟩, ⟨.integer (-3), ⟨1, 3⟩⟩] := by
    with_unfolding_all rfl
  have htwo := hjoin _ "\r\n " "y)" _ hfirst hbreak
  have hone := hjoin _ "\r\n " "1." _ hfirst hbreak
  rw [htokens] at htwo
  rw [herror] at hone
  exact ⟨hfirst, hbreak, htwo, hone, hminus, hdivide "5" "-3" _ _ hminus (.head _) rfl⟩

end LazyLisp.Token
