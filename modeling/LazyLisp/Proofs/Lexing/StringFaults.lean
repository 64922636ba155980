import LazyLisp.Proofs.Lexing.Strings

/-!
# What is wrong with a string

A string literal can be at fault in two ways: it is never closed, or a
character is escaped that has no escape.  Which of them is reported should
depend on the closing quote alone, the first quote that no backslash escapes
(`closes`).  It does not in two cases.

A backslash before a line feed ends the piece that the pattern takes, so that
the literal counts as unterminated, wherever it is closed.  And a piece that
runs to the end of the text looks closed if its last character is an escaped
quote; then its escapes are resolved first, and one that is unknown is reported
although the literal is unterminated.

## Main results

* `string_fault_iff` — which fault is reported for a literal, from the
  characters behind its opening quote.
* `string_fault_confused` — the two cases in which it is the wrong one.
-/

namespace LazyLisp.Token

open Regex

/-- Whether there is a closing quote. -/
def closes : List Char → Bool
  | [] => false
  | '"' :: _ => true
  | ['\\'] => false
  | '\\' :: _ :: rest => closes rest
  | _ :: rest => closes rest

section Body

variable {body left rest : List Char} {offset : Nat} {fault : Fault}

private theorem closes_plain {c : Char} (hquote : c ≠ '"') (hbackslash : c ≠ '\\')
    (rest : List Char) : closes (c :: rest) = closes rest := by
  rw [closes]
  · exact hquote
  · exact fun h _ => hbackslash h
  · exact fun _ _ h _ => hbackslash h

/-- No unit of a body closes the literal. -/
theorem closes_units (h : (many bodyUnit).Matches body) (rest : List Char) :
    closes (body ++ rest) = closes rest := by
  induction h using Matches.many_induction with
  | stop => rfl
  | @more u v hu _ ih =>
      rw [List.append_assoc]
      rcases matches_bodyUnit_iff.mp hu with ⟨c, rfl, hquote, hbackslash⟩ | ⟨c, rfl, -⟩
      · exact (closes_plain hquote hbackslash _).trans ih
      · exact ih

/-! ## The fault of a literal -/

/-- What is reported at the beginning of a literal is the fault of its piece:
another error stands behind it. -/
theorem scan_string_error_iff (hbody : (many bodyUnit).Matches body) (hleft : StopsBody left) :
    (∃ stop, scan offset ('"' :: (body ++ left)) = .error ⟨fault, ⟨offset, stop⟩⟩) ↔
      stringValue (spelling body left) = .error fault := by
  rw [scan_string hbody hleft]
  have hpos : 0 < Text.byteLength (spelling body left) := Text.byteLength_pos (by simp [spelling])
  cases hvalue : stringValue (spelling body left) with
  | error fault' => simp
  | ok s =>
      simp only [reduceCtorEq, iff_false, not_exists]
      intro stop herror
      cases hrest : scan (offset + Text.byteLength (spelling body left)) (left.drop 1) with
      | ok ts =>
          rw [hrest] at herror
          cases herror
      | error e =>
          rw [hrest] at herror
          cases herror
          have hstart := le_start_of_scan_error hrest
          simp only at hstart
          omega

/-- What is reported for a literal, from the characters behind its opening
quote. -/
def literalFault? (rest : List Char) : Option Fault :=
  if '\n' ∈ escapes rest then some .unterminatedString
  else if closes rest = true then (firstUnknown? rest).map .unknownEscape
  else if rest.getLast? = some '"' then
    some ((firstUnknown? rest).elim .unterminatedString .unknownEscape)
  else some .unterminatedString

/-- When either fault is reported. -/
theorem literalFault?_eq_some_iff :
    (literalFault? rest = some .unterminatedString ↔
      '\n' ∈ escapes rest ∨
        closes rest = false ∧ (rest.getLast? = some '"' → firstUnknown? rest = none)) ∧
    ∀ c, literalFault? rest = some (.unknownEscape c) ↔
      '\n' ∉ escapes rest ∧ (closes rest = true ∨ rest.getLast? = some '"') ∧
        firstUnknown? rest = some c := by
  unfold literalFault?
  by_cases hline : '\n' ∈ escapes rest
  · simp [hline]
  · by_cases hclosed : closes rest = true
    · simp [hline, hclosed]
    · by_cases hlast : rest.getLast? = some '"'
      · cases hunknown : firstUnknown? rest <;> simp [hline, hclosed, hlast]
      · simp [hline, hclosed, hlast]

/-- A literal that is closed has the fault of its escapes. -/
theorem stringValue_literal_error_iff (h : (many bodyUnit).Matches body) :
    stringValue (literal body) = .error fault ↔
      (firstUnknown? body).map .unknownEscape = some fault := by
  rw [stringValue_literal]
  rcases unescape_body h with ⟨cs, -, hnone, hvalue⟩ | ⟨c, hsome, hvalue⟩
  · simp [hnone, hvalue, Except.map]
  · simp [hsome, hvalue, Except.map]

/-- The piece of a literal has the fault that is reported for it. -/
theorem stringValue_error_iff (hbody : (many bodyUnit).Matches body) (hleft : StopsBody left) :
    stringValue (spelling body left) = .error fault ↔
      literalFault? (body ++ left) = some fault := by
  obtain ⟨es, hes, hescapes⟩ := exists_escapes_units hbody
  have hline (hnone : escapes left = []) : '\n' ∉ escapes (body ++ left) := by
    rwa [hescapes, hnone, List.append_nil]
  have hbackslash (more : List Char) :
      stringValue (spelling body ('\\' :: more)) = .error .unterminatedString := by
    refine stringValue_of_getLast_ne ?_
    have hpiece : spelling body ('\\' :: more) = ('"' :: body) ++ ['\\'] := rfl
    rw [hpiece, List.getLast?_concat]
    decide
  cases hleft with
  | textEnd =>
      have hopen : closes (body ++ []) ≠ true := by
        rw [closes_units hbody]
        decide
      rw [literalFault?, if_neg (hline rfl), if_neg hopen, stringValue_open hbody, List.append_nil]
      split <;> simp
  | backslash =>
      have hopen : closes (body ++ ['\\']) ≠ true := by
        rw [closes_units hbody]
        decide
      have hlast : (body ++ ['\\']).getLast? ≠ some '"' := by
        rw [List.getLast?_concat]
        decide
      rw [literalFault?, if_neg (hline rfl), if_neg hopen, if_neg hlast, hbackslash]
      simp
  | quote after =>
      have hclosed : closes (body ++ '"' :: after) = true := closes_units hbody _
      have hunknown : firstUnknown? (body ++ '"' :: after) = firstUnknown? body := by
        rw [firstUnknown?_append hbody]
        exact Option.or_none
      rw [literalFault?, if_neg (hline rfl), if_pos hclosed, hunknown]
      exact stringValue_literal_error_iff hbody
  | lineFeed after =>
      have hmem : '\n' ∈ escapes (body ++ '\\' :: '\n' :: after) := by
        rw [hescapes]
        exact List.mem_append_right es List.mem_cons_self
      rw [literalFault?, if_pos hmem, hbackslash]
      simp

/-- What is reported where the scanner comes to a quote. -/
theorem scan_quote_error_iff (offset : Nat) (rest : List Char) (fault : Fault) :
    (∃ stop, scan offset ('"' :: rest) = .error ⟨fault, ⟨offset, stop⟩⟩) ↔
      literalFault? rest = some fault := by
  obtain ⟨body, left, rfl, hbody, hleft⟩ := exists_body rest
  rw [scan_string_error_iff hbody hleft, stringValue_error_iff hbody hleft]

end Body

/-! ## The fault of a text -/

/-- A text that is cut up to some place has the error that is found there. -/
theorem Cut.tokenize_error_iff {source : String} {ts : List Token} {p : Nat} {left : List Char}
    (h : Cut 0 source.toList ts p left) (e : Error) :
    tokenize source = .error e ↔ scan p left = .error e := by
  rw [tokenize, h.scan_eq]
  cases scan p left <;> simp [Except.map]

/-- Where the scanner comes to a quote, the literal is reported as unterminated
if an escaped line feed stands before its closing quote, or if it has no closing
quote; but not if the text ends in an escaped quote and one of the escapes is
unknown.  An unknown escape is reported if there is no escaped line feed, and a
closing quote or an escaped one at the end.

So but for these two cases a literal is reported as unterminated exactly if it
has no closing quote, and else for its first unknown escape. -/
theorem string_fault_iff {source : String} {ts : List Token} {p : Nat} {rest : List Char}
    (h : Cut 0 source.toList ts p ('"' :: rest)) :
    ((∃ stop, tokenize source = .error ⟨.unterminatedString, ⟨p, stop⟩⟩) ↔
      '\n' ∈ escapes rest ∨
        closes rest = false ∧ (rest.getLast? = some '"' → firstUnknown? rest = none)) ∧
    (∀ c, (∃ stop, tokenize source = .error ⟨.unknownEscape c, ⟨p, stop⟩⟩) ↔
      '\n' ∉ escapes rest ∧ (closes rest = true ∨ rest.getLast? = some '"') ∧
        firstUnknown? rest = some c) ∧
    ('\n' ∉ escapes rest → (closes rest = false → rest.getLast? = some '"' →
        firstUnknown? rest = none) →
      ((∃ stop, tokenize source = .error ⟨.unterminatedString, ⟨p, stop⟩⟩) ↔
        closes rest = false) ∧
      ∀ c, closes rest = true → firstUnknown? rest = some c →
        ∃ stop, tokenize source = .error ⟨.unknownEscape c, ⟨p, stop⟩⟩) := by
  have hfault (fault : Fault) :
      (∃ stop, tokenize source = .error ⟨fault, ⟨p, stop⟩⟩) ↔ literalFault? rest = some fault := by
    simp only [h.tokenize_error_iff]
    exact scan_quote_error_iff p rest fault
  have hunterminated := (hfault .unterminatedString).trans literalFault?_eq_some_iff.1
  have hunknown (c : Char) := (hfault (.unknownEscape c)).trans (literalFault?_eq_some_iff.2 c)
  refine ⟨hunterminated, hunknown, fun hline hlast => ⟨?_, fun c hclosed hc => ?_⟩⟩
  · rw [hunterminated]
    exact ⟨fun h => (h.resolve_left hline).1, fun h => .inr ⟨h, hlast h⟩⟩
  · exact (hunknown c).mpr ⟨hline, .inl hclosed, hc⟩

/-- The second of two literals has two unknown escapes after a known one; an
unterminated one ends in an escaped quote. -/
theorem string_fault_iff_escapes :
    Cut 0 "\"\" \"\\t\\q\\x\"".toList [⟨.string "", ⟨0, 2⟩⟩] 3 ('"' :: "\\t\\q\\x\"".toList) ∧
    (∃ stop, tokenize "\"\" \"\\t\\q\\x\"" = .error ⟨.unknownEscape 'q', ⟨3, stop⟩⟩) ∧
    (¬∃ stop, tokenize "\"\" \"\\t\\q\\x\"" = .error ⟨.unterminatedString, ⟨3, stop⟩⟩) ∧
    Cut 0 "\"\\n\\\"".toList [] 0 ('"' :: "\\n\\\"".toList) ∧
      ∃ stop, tokenize "\"\\n\\\"" = .error ⟨.unterminatedString, ⟨0, stop⟩⟩ := by
  have hempty : Pattern.string.Munches ['"', '"'] "\"\" \"\\t\\q\\x\"".toList :=
    munches_iff.mpr (by decide)
  have hblank : Pattern.separators.Munches [' '] " \"\\t\\q\\x\"".toList :=
    munches_iff.mpr (by decide)
  have hsecond : Cut 0 "\"\" \"\\t\\q\\x\"".toList [⟨.string "", ⟨0, 2⟩⟩] 3
      ('"' :: "\\t\\q\\x\"".toList) := .token hempty rfl (.skip hblank rfl (.done _ _))
  have hopen : Cut 0 "\"\\n\\\"".toList [] 0 ('"' :: "\\n\\\"".toList) := .done _ _
  obtain ⟨hunterminated, hunknown, -⟩ := string_fault_iff hsecond
  refine ⟨hsecond, (hunknown 'q').mpr (by decide), fun h => ?_, hopen, ?_⟩
  · exact absurd (hunterminated.mp h) (by decide)
  · exact (string_fault_iff hopen).1.mpr (by decide)

/-- A literal that is closed counts as unterminated if it escapes a line feed,
and one that is not closed is reported for an unknown escape if it ends in an
escaped quote. -/
theorem string_fault_confused :
    (Cut 0 "\"\\\n\"".toList [] 0 ('"' :: "\\\n\"".toList) ∧
      closes "\\\n\"".toList = true ∧ firstUnknown? "\\\n\"".toList = some '\n' ∧
      tokenize "\"\\\n\"" = .error ⟨.unterminatedString, ⟨0, 2⟩⟩) ∧
    (Cut 0 "\"\\q\\\"".toList [] 0 ('"' :: "\\q\\\"".toList) ∧
      closes "\\q\\\"".toList = false ∧
      tokenize "\"\\q\\\"" = .error ⟨.unknownEscape 'q', ⟨0, 5⟩⟩) := by
  have hline : tokenize "\"\\\n\"" = .error ⟨.unterminatedString, ⟨0, 2⟩⟩ := by
    with_unfolding_all rfl
  have hquote : tokenize "\"\\q\\\"" = .error ⟨.unknownEscape 'q', ⟨0, 5⟩⟩ := by
    with_unfolding_all rfl
  exact ⟨⟨.done _ _, by decide, by decide, hline⟩, .done _ _, by decide, hquote⟩

end LazyLisp.Token
