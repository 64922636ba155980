import LazyLisp.Proofs.Lexing.Slices

/-!
# String literals

The pattern of a string does not ask for a closing quote: it goes over plain
characters and escapes as far as they reach and takes one more character,
whatever that is.  Whether the literal was closed is looked at afterwards, by
its last character.  That character can be an escaped quote, and then it is the
resolution of the escapes that finds one character missing.

Here is what this comes to.  The text behind an opening quote is a row of
units, plain characters and escapes, and then one of four things that no unit
begins with (`StopsBody`).  So the piece that is munched can be written down in
each case, and with it the value.  A unit is either how a character of the
string is written (`SpellsChar`) or an escape of a character that has none;
this is all that the resolution of escapes has to tell apart.

## Main results

* `exists_body` — what stands behind an opening quote.
* `munches_string` — the piece that is munched there.
* `unescape_units` — what resolving the escapes of a body gives.
* `exists_literal` — a literal with a value is closed, and its body spells the
  value.
* `tokenize_literal` — a literal is read as the string it spells, whatever
  follows it, and there are no other strings among the tokens of a text.
-/

namespace LazyLisp.Token

open Regex

/-! ## How strings are written -/

/-- How a character of a string is written in the body of a literal. A line
feed, a carriage return and a tab can stand for themselves as well. -/
inductive SpellsChar : Char → List Char → Prop where
  | plain {c : Char} (hquote : c ≠ '"') (hbackslash : c ≠ '\\') : SpellsChar c [c]
  | quote : SpellsChar '"' ['\\', '"']
  | backslash : SpellsChar '\\' ['\\', '\\']
  | lineFeed : SpellsChar '\n' ['\\', 'n']
  | carriageReturn : SpellsChar '\r' ['\\', 'r']
  | tab : SpellsChar '\t' ['\\', 't']

/-- How the characters of a string are written, one after the other. -/
inductive SpellsBody : List Char → List Char → Prop where
  | nil : SpellsBody [] []
  | cons {c : Char} {u cs body : List Char} (hchar : SpellsChar c u)
      (hrest : SpellsBody cs body) : SpellsBody (c :: cs) (u ++ body)

/-- The literal with this body. -/
def literal (body : List Char) : List Char := '"' :: (body ++ ['"'])

/-- The characters that may stand after a backslash. -/
def knownEscapes : List Char := ['n', 'r', 't', '\\', '"']

private theorem escaped_eq_none_iff {c : Char} : escaped c = none ↔ c ∉ knownEscapes := by
  unfold escaped knownEscapes
  split <;> simp_all

section Spelling

variable {c : Char} {u cs body rest : List Char}

private theorem SpellsChar.bodyUnit (h : SpellsChar c u) : bodyUnit.Matches u := by
  cases h with
  | plain hquote hbackslash => exact matches_bodyUnit_iff.mpr (.inl ⟨c, rfl, hquote, hbackslash⟩)
  | _ => exact matches_bodyUnit_iff.mpr (.inr ⟨_, rfl, by decide⟩)

private theorem SpellsBody.units (h : SpellsBody cs body) : (many Token.bodyUnit).Matches body := by
  induction h with
  | nil => exact .stop
  | cons hchar _ ih => exact .more hchar.bodyUnit ih

/-- Resolving escapes goes on behind how a character is written. -/
theorem SpellsChar.unescape_append (h : SpellsChar c u) (rest : List Char) :
    unescape (u ++ rest) = (unescape rest).map (c :: ·) := by
  cases h with
  | plain hquote hbackslash =>
      rw [List.singleton_append, unescape]
      · exact fun h _ => hbackslash h
      · exact fun _ _ h _ => hbackslash h
  | _ => rfl

/-- A unit of a body is how a character is written, or a backslash before a
character that has no escape. -/
theorem unit_cases (hu : Token.bodyUnit.Matches u) :
    (∃ c, SpellsChar c u) ∨ ∃ c, u = ['\\', c] ∧ c ∉ knownEscapes := by
  rcases matches_bodyUnit_iff.mp hu with ⟨c, rfl, hquote, hbackslash⟩ | ⟨c, rfl, -⟩
  · exact .inl ⟨c, .plain hquote hbackslash⟩
  · by_cases hknown : c ∈ knownEscapes
    · simp only [knownEscapes, List.mem_cons, List.not_mem_nil, or_false] at hknown
      rcases hknown with rfl | rfl | rfl | rfl | rfl
      · exact .inl ⟨_, .lineFeed⟩
      · exact .inl ⟨_, .carriageReturn⟩
      · exact .inl ⟨_, .tab⟩
      · exact .inl ⟨_, .backslash⟩
      · exact .inl ⟨_, .quote⟩
    · exact .inr ⟨c, rfl, hknown⟩

end Spelling

/-! ## What follows an opening quote -/

/-- The characters that backslashes escape, up to the closing quote: the first
quote that is not escaped itself. -/
def escapes : List Char → List Char
  | [] => []
  | '"' :: _ => []
  | ['\\'] => []
  | '\\' :: c :: rest => c :: escapes rest
  | _ :: rest => escapes rest

/-- The first character that is escaped and has no escape. -/
def firstUnknown? (cs : List Char) : Option Char :=
  (escapes cs).find? fun c => !knownEscapes.contains c

/-- What stands behind the units of a body: nothing, a backslash that escapes
nothing, a quote, or a backslash before a line feed. -/
inductive StopsBody : List Char → Prop where
  | textEnd : StopsBody []
  | backslash : StopsBody ['\\']
  | quote (after : List Char) : StopsBody ('"' :: after)
  | lineFeed (after : List Char) : StopsBody ('\\' :: '\n' :: after)

section Body

variable {c : Char} {u cs body left rest : List Char}

theorem escapes_plain (hquote : c ≠ '"') (hbackslash : c ≠ '\\') (rest : List Char) :
    escapes (c :: rest) = escapes rest := by
  rw [escapes]
  · exact hquote
  · exact fun h _ => hbackslash h
  · exact fun _ _ h _ => hbackslash h

/-- A text is a row of units and something that no unit begins with. -/
theorem exists_body (rest : List Char) :
    ∃ body left, rest = body ++ left ∧ (many bodyUnit).Matches body ∧ StopsBody left := by
  fun_induction bodyReach rest with
  | case1 => exact ⟨[], [], rfl, .stop, .textEnd⟩
  | case2 after => exact ⟨[], _, rfl, .stop, .quote after⟩
  | case3 => exact ⟨[], _, rfl, .stop, .backslash⟩
  | case4 after => exact ⟨[], _, rfl, .stop, .lineFeed after⟩
  | case5 c rest hne ih =>
      obtain ⟨body, left, rfl, hbody, hleft⟩ := ih
      have hunit : bodyUnit.Matches ['\\', c] := matches_bodyUnit_iff.mpr (.inr ⟨c, rfl, hne⟩)
      exact ⟨['\\', c] ++ body, left, rfl, .more hunit hbody, hleft⟩
  | case6 c rest hquote hend hline hescape ih =>
      have hbackslash : c ≠ '\\' := by
        cases rest with
        | nil => exact fun h => hend h rfl
        | cons d more => exact fun h => hescape d more h rfl
      have hunit : bodyUnit.Matches [c] :=
        matches_bodyUnit_iff.mpr (.inl ⟨c, rfl, hquote, hbackslash⟩)
      obtain ⟨body, left, rfl, hbody, hleft⟩ := ih
      exact ⟨[c] ++ body, left, rfl, .more hunit hbody, hleft⟩

/-- The units of a body add what they escape, and that is no line feed. -/
theorem exists_escapes_units (h : (many bodyUnit).Matches body) :
    ∃ es, '\n' ∉ es ∧ ∀ rest, escapes (body ++ rest) = es ++ escapes rest := by
  induction h using Matches.many_induction with
  | stop => exact ⟨[], List.not_mem_nil, fun _ => rfl⟩
  | @more u v hu _ ih =>
      obtain ⟨es, hes, heq⟩ := ih
      rcases matches_bodyUnit_iff.mp hu with ⟨c, rfl, hquote, hbackslash⟩ | ⟨c, rfl, hc⟩
      · refine ⟨es, hes, fun rest => ?_⟩
        exact (escapes_plain hquote hbackslash _).trans (heq rest)
      · refine ⟨c :: es, by simp [hes, hc.symm], fun rest => ?_⟩
        exact congrArg (c :: ·) (heq rest)

/-- The first unknown escape of a text is that of its first part, if it has one. -/
theorem firstUnknown?_append (h : (many bodyUnit).Matches body) (rest : List Char) :
    firstUnknown? (body ++ rest) = (firstUnknown? body).or (firstUnknown? rest) := by
  obtain ⟨es, -, heq⟩ := exists_escapes_units h
  have hbody := heq []
  rw [List.append_nil] at hbody
  rw [firstUnknown?, firstUnknown?, firstUnknown?, heq, hbody, List.find?_append, List.find?_append]
  simp [escapes]

private theorem SpellsChar.firstUnknown?_append (h : SpellsChar c u) (rest : List Char) :
    firstUnknown? (u ++ rest) = firstUnknown? rest := by
  cases h with
  | plain hquote hbackslash =>
      rw [firstUnknown?, List.singleton_append, escapes_plain hquote hbackslash, firstUnknown?]
  | _ => rfl

/-- Escapes are resolved unit after unit, up to the first that is unknown. -/
theorem unescape_units (h : (many bodyUnit).Matches body) :
    (∃ cs, SpellsBody cs body ∧ firstUnknown? body = none ∧
      ∀ rest, unescape (body ++ rest) = (unescape rest).map (cs ++ ·)) ∨
    ∃ c, firstUnknown? body = some c ∧
      ∀ rest, unescape (body ++ rest) = .error (.unknownEscape c) := by
  induction h using Matches.many_induction with
  | stop =>
      refine .inl ⟨[], .nil, rfl, fun rest => ?_⟩
      cases hrest : unescape rest <;> simp [Except.map, hrest]
  | @more u v hu _ ih =>
      rcases unit_cases hu with ⟨c, hchar⟩ | ⟨c, rfl, hunknown⟩
      · rcases ih with ⟨cs, hbody, hnone, hvalue⟩ | ⟨d, hsome, hvalue⟩
        · refine .inl ⟨c :: cs, .cons hchar hbody, ?_, fun rest => ?_⟩
          · rw [hchar.firstUnknown?_append, hnone]
          · rw [List.append_assoc, hchar.unescape_append, hvalue]
            cases unescape rest <;> rfl
        · refine .inr ⟨d, ?_, fun rest => ?_⟩
          · rw [hchar.firstUnknown?_append, hsome]
          · rw [List.append_assoc, hchar.unescape_append, hvalue]
            rfl
      · refine .inr ⟨c, ?_, fun rest => ?_⟩
        · show (c :: escapes v).find? _ = some c
          rw [List.find?_cons_of_pos]
          simpa using hunknown
        · show unescape ('\\' :: c :: (v ++ rest)) = _
          rw [unescape, escaped_eq_none_iff.mpr hunknown]

/-- A body spells what it resolves to, unless one of its escapes is unknown. -/
theorem unescape_body (h : (many bodyUnit).Matches body) :
    (∃ cs, SpellsBody cs body ∧ firstUnknown? body = none ∧ unescape body = .ok cs) ∨
      ∃ c, firstUnknown? body = some c ∧ unescape body = .error (.unknownEscape c) := by
  rcases unescape_units h with ⟨cs, hspells, hnone, hvalue⟩ | ⟨c, hsome, hvalue⟩
  · have hall := hvalue []
    rw [List.append_nil] at hall
    exact .inl ⟨cs, hspells, hnone, by simpa [unescape, Except.map] using hall⟩
  · have hall := hvalue []
    rw [List.append_nil] at hall
    exact .inr ⟨c, hsome, hall⟩

/-- If a body ends in a quote, the last unit is an escaped quote. -/
theorem exists_of_getLast_quote (h : (many bodyUnit).Matches body)
    (hlast : body.getLast? = some '"') :
    ∃ before, (many bodyUnit).Matches before ∧ body = before ++ ['\\', '"'] := by
  induction h using Matches.many_induction with
  | stop => cases hlast
  | @more u v hu _ ih =>
      by_cases hnil : v = []
      · subst hnil
        rw [List.append_nil] at hlast ⊢
        refine ⟨[], .stop, ?_⟩
        rcases matches_bodyUnit_iff.mp hu with ⟨c, rfl, hquote, -⟩ | ⟨c, rfl, -⟩
        · exact absurd (Option.some.inj hlast) hquote
        · cases hlast
          rfl
      · rw [List.getLast?_append, List.getLast?_eq_some_getLast hnil, Option.some_or,
          ← List.getLast?_eq_some_getLast hnil] at hlast
        obtain ⟨before, hbefore, rfl⟩ := ih hlast
        exact ⟨u ++ before, .more hu hbefore, (List.append_assoc _ _ _).symm⟩

/-! ## The piece that is munched -/

/-- The piece of a string: the quote, the body, and one more character if there
is one. -/
def spelling (body left : List Char) : List Char := '"' :: (body ++ left.take 1)

/-- The piece of a string and what is left make up the text. -/
theorem spelling_append_drop (body left : List Char) :
    spelling body left ++ left.drop 1 = '"' :: (body ++ left) := by
  rw [spelling, List.cons_append, List.append_assoc, List.take_append_drop]

private theorem bodyReach_stops (h : StopsBody left) : bodyReach left = (left.take 1).length := by
  cases h <;> rfl

/-- Nothing but a string begins with a quote. -/
theorem Pattern.eq_string_of_opens {p : Pattern} (h : p.opens '"' = true) : p = .string := by
  have honly : ∀ q ∈ Pattern.all, q.opens '"' = true → q = .string := by decide
  exact honly p p.mem_all h

/-- A body is taken as a string up to the character that ends it. -/
theorem munches_string (hbody : (many bodyUnit).Matches body) (hleft : StopsBody left) :
    Pattern.string.Munches (spelling body left) (spelling body left ++ left.drop 1) := by
  refine ⟨List.prefix_append _ _, ?_, ?_, fun h => by cases h⟩
  · refine .seq (u := ['"']) (matches_char_iff.mpr rfl) (.seq hbody ?_)
    cases hleft with
    | textEnd => exact .right .empty
    | _ => exact .left (.one (by decide))
  · rintro q w ⟨tail, hw⟩ hq
    obtain ⟨c, more, rfl, hopens⟩ := Pattern.opens_of_matches hq
    rw [spelling_append_drop] at hw
    have hc : c = '"' := (List.cons.inj hw).1
    rw [hc] at hopens
    rw [Pattern.eq_string_of_opens hopens] at hq
    have hlongest := (measures_string _).longest _ _ hw.symm hq
    rw [stringReach, bodyReach_units hbody, bodyReach_stops hleft] at hlongest
    simp only [spelling, List.length_cons, List.length_append] at hlongest ⊢
    omega

/-- What the scanner does behind an opening quote. -/
theorem scan_string (hbody : (many bodyUnit).Matches body) (hleft : StopsBody left)
    (offset : Nat) :
    scan offset ('"' :: (body ++ left)) =
      match stringValue (spelling body left) with
      | .error fault => .error ⟨fault, ⟨offset, offset + Text.byteLength (spelling body left)⟩⟩
      | .ok s => (scan (offset + Text.byteLength (spelling body left)) (left.drop 1)).map
          (⟨.string s, ⟨offset, offset + Text.byteLength (spelling body left)⟩⟩ :: ·) := by
  rw [← spelling_append_drop, scan_munches (munches_string hbody hleft), ofPiece]
  cases stringValue (spelling body left) <;> rfl

/-! ### Its value -/

/-- A literal stands for what its body is decoded to. -/
theorem stringValue_literal (body : List Char) :
    stringValue (literal body) = (unescape body).map String.ofList := by
  have hlast : (literal body).getLast? = some '"' := by
    rw [literal, ← List.cons_append, List.getLast?_concat]
  have hbody : ((literal body).drop 1).dropLast = body := List.dropLast_concat
  have hclosed : ¬((literal body).length = 1 ∨ (literal body).getLast? ≠ some '"') := by
    rw [hlast]
    simp [literal]
  rw [stringValue, if_neg hclosed, hbody]

/-- A piece that does not end in a quote was not closed. -/
theorem stringValue_of_getLast_ne {piece : List Char} (h : piece.getLast? ≠ some '"') :
    stringValue piece = .error .unterminatedString :=
  if_pos (.inr h)

/-- A piece that ends with its body was not closed either; if it ends in an
escaped quote, this is found out only after all escapes before. -/
theorem stringValue_open (h : (many bodyUnit).Matches body) :
    stringValue (spelling body []) = .error
      (if body.getLast? = some '"' then
        (firstUnknown? body).elim .unterminatedString .unknownEscape
      else .unterminatedString) := by
  have hpiece : spelling body [] = '"' :: body := by simp [spelling]
  rw [hpiece]
  by_cases hlast : body.getLast? = some '"'
  · obtain ⟨before, hbefore, rfl⟩ := exists_of_getLast_quote h hlast
    have hliteral : '"' :: (before ++ ['\\', '"']) = literal (before ++ ['\\']) := by
      simp [literal]
    have hquote : firstUnknown? ['\\', '"'] = none := rfl
    rw [if_pos hlast, hliteral, stringValue_literal, firstUnknown?_append hbefore, hquote,
      Option.or_none]
    rcases unescape_units hbefore with ⟨cs, -, hnone, hvalue⟩ | ⟨c, hsome, hvalue⟩
    · rw [hvalue, hnone]
      rfl
    · rw [hvalue, hsome]
      rfl
  · rw [if_neg hlast]
    cases body with
    | nil => rfl
    | cons c rest =>
        refine stringValue_of_getLast_ne ?_
        rwa [List.getLast?_cons_cons]

/-- A literal with a value is closed, and its body spells the value. -/
theorem exists_literal {piece : List Char} {s : String}
    (h : (Pattern.regex .string).Matches piece) (hvalue : stringValue piece = .ok s) :
    ∃ body, piece = literal body ∧ (many bodyUnit).Matches body ∧ SpellsBody s.toList body := by
  obtain ⟨u, v, rfl, hquote, hrest⟩ := matches_seq_iff.mp h
  cases matches_char_iff.mp hquote
  obtain ⟨body, last, rfl, hbody, hlast⟩ := matches_seq_iff.mp hrest
  rcases matches_optional_iff.mp hlast with hone | rfl
  · obtain ⟨c, rfl, -⟩ := matches_one_iff.mp hone
    by_cases hc : c = '"'
    · subst hc
      have hpiece : ['"'] ++ (body ++ ['"']) = literal body := rfl
      rw [hpiece, stringValue_literal] at hvalue
      refine ⟨body, hpiece, hbody, ?_⟩
      rcases unescape_body hbody with ⟨cs, hspells, -, hunescape⟩ | ⟨d, -, hunescape⟩
      · rw [hunescape] at hvalue
        cases hvalue
        rwa [String.toList_ofList]
      · rw [hunescape] at hvalue
        cases hvalue
    · rw [stringValue_of_getLast_ne] at hvalue
      · cases hvalue
      · rw [← List.append_assoc, List.getLast?_concat]
        simpa using hc
  · have hopen := stringValue_open hbody
    rw [spelling, List.take_nil] at hopen
    rw [List.singleton_append, hopen] at hvalue
    cases hvalue

/-! ## Literals among tokens -/

private theorem ofPiece_eq_string {p : Pattern} {piece : List Char} {s : String}
    (h : ofPiece p piece = .ok (some (.string s))) :
    p = .string ∧ stringValue piece = .ok s := by
  cases p with
  | string =>
      simp only [ofPiece] at h
      cases hvalue : stringValue piece <;> rw [hvalue] at h <;> cases h
      exact ⟨rfl, rfl⟩
  | integer =>
      simp only [ofPiece] at h
      split at h <;> cases h
  | _ => cases h

private theorem SpellsBody.unescape_eq (h : SpellsBody cs body) : unescape body = .ok cs := by
  induction h with
  | nil => rfl
  | cons hchar _ ih =>
      rw [hchar.unescape_append, ih]
      rfl

private theorem spellsBody_escape (cs : List Char) : SpellsBody cs (escape cs) := by
  induction cs with
  | nil => exact .nil
  | cons c rest ih =>
      rw [escape]
      split
      · rename_i hspecial
        rcases hspecial with rfl | rfl
        · exact .cons .quote ih
        · exact .cons .backslash ih
      · rename_i hplain
        exact .cons (.plain (fun h => hplain (.inl h)) (fun h => hplain (.inr h))) ih

/-- A literal is read as the string it spells, whatever follows it. -/
theorem scan_literal (h : SpellsBody cs body) (offset : Nat) (rest : List Char) :
    scan offset (literal body ++ rest) =
      (scan (offset + Text.byteLength (literal body)) rest).map
        (⟨.string (String.ofList cs), ⟨offset, offset + Text.byteLength (literal body)⟩⟩ :: ·) := by
  have htext : literal body ++ rest = '"' :: (body ++ '"' :: rest) := by simp [literal]
  have hspelling : spelling body ('"' :: rest) = literal body := rfl
  rw [htext, scan_string h.units (.quote rest), hspelling, stringValue_literal, h.unescape_eq]
  rfl

/-- However the characters of a string are written as a literal, and every
string can be so written, the text that begins with the literal has the string
as its first token, and then the tokens or the error of what follows the
literal, so many bytes later.  All strings among the tokens of a text come from
such literals. -/
theorem tokenize_literal :
    (∀ s : String, SpellsBody s.toList (escape s.toList)) ∧
    (∀ (s t : String) (body : List Char), SpellsBody s.toList body →
      tokenize (String.ofList (literal body) ++ t) =
        (moved (Text.byteLength (literal body)) (tokenize t)).map
          (⟨.string s, ⟨0, Text.byteLength (literal body)⟩⟩ :: ·)) ∧
    ∀ (source : String) (ts : List Token), tokenize source = .ok ts →
      ∀ t ∈ ts, ∀ s, t.kind = .string s → ∃ before body after,
        source.toList = before ++ literal body ++ after ∧
        t.span = ⟨Text.byteLength before, Text.byteLength (before ++ literal body)⟩ ∧
        SpellsBody s.toList body := by
  refine ⟨fun s => spellsBody_escape _, fun s t body hbody => ?_, fun source ts h t ht s hs => ?_⟩
  · have hshift := scan_add (Text.byteLength (literal body)) 0 t.toList
    rw [Nat.add_zero] at hshift
    rw [tokenize, String.toList_append, String.toList_ofList, scan_literal hbody, Nat.zero_add,
      hshift, String.ofList_toList]
    rfl
  · obtain ⟨stop, hcut⟩ := scan_eq_ok_iff.mp h
    obtain ⟨before, piece, after, htext, hspan, p, hmatch, htoken⟩ := hcut.exists_piece ht
    rw [hs] at htoken
    obtain ⟨hp, hvalue⟩ := ofPiece_eq_string htoken
    subst hp
    obtain ⟨body, rfl, -, hbody⟩ := exists_literal hmatch hvalue
    refine ⟨before, body, after, htext, ?_, hbody⟩
    rw [hspan, Nat.zero_add, Nat.zero_add]

end Body

/-- An escaped quote, a line feed that stands for itself and a last backslash,
right before a quote that is never closed; and an escaped line feed between two
other tokens. -/
theorem tokenize_literal_quotes :
    SpellsBody "é\"\n\\".toList ['é', '\\', '"', '\n', '\\', '\\'] ∧
    tokenize (String.ofList (literal ['é', '\\', '"', '\n', '\\', '\\']) ++ "\"") =
      .error ⟨.unterminatedString, ⟨9, 10⟩⟩ ∧
    tokenize "x\"\\n\"1" =
      .ok [⟨.symbol "x", ⟨0, 1⟩⟩, ⟨.string "\n", ⟨1, 5⟩⟩, ⟨.integer 1, ⟨5, 6⟩⟩] ∧
    ∃ before body after, "x\"\\n\"1".toList = before ++ literal body ++ after ∧
      (⟨1, 5⟩ : Span) = ⟨Text.byteLength before, Text.byteLength (before ++ literal body)⟩ ∧
      SpellsBody "\n".toList body := by
  obtain ⟨-, hread, hstrings⟩ := tokenize_literal
  have hbody : SpellsBody "é\"\n\\".toList ['é', '\\', '"', '\n', '\\', '\\'] :=
    .cons (.plain (by decide) (by decide)) (.cons .quote
      (.cons (.plain (by decide) (by decide)) (.cons .backslash .nil)))
  have hquote : tokenize "\"" = .error ⟨.unterminatedString, ⟨0, 1⟩⟩ := by
    with_unfolding_all rfl
  have htokens : tokenize "x\"\\n\"1" =
      .ok [⟨.symbol "x", ⟨0, 1⟩⟩, ⟨.string "\n", ⟨1, 5⟩⟩, ⟨.integer 1, ⟨5, 6⟩⟩] := by
    with_unfolding_all rfl
  have hfirst := hread _ "\"" _ hbody
  rw [hquote] at hfirst
  exact ⟨hbody, hfirst, htokens, hstrings _ _ htokens _ (.tail _ (.head _)) _ rfl⟩

end LazyLisp.Token
