import LazyLisp.Proofs.Lexing.Reach
import LazyLisp.Token.Stream

/-!
# Maximal munch

The tokens of a text are said here without a scanner: from left to right the
text is cut into pieces, each the longest prefix of what is left that any of
the declared expressions matches.  A symbol gives way to a number or a boolean
with the same spelling; no other two patterns match the same text.

`Cut` is that relation between a text and the tokens of its pieces, and
`Stuck` says how it comes to an end before the text does.  The scanner
computes exactly these.  So where tokens stand follows from how pieces follow
each other, which is what `Laid` says.

## Main results

* `munches_iff` — the scanner picks the piece that the relation allows.
* `Cut.scan_eq` — it passes over pieces that were cut.
* `exists_cut` — every text can be cut up to its end or to an error.
* `tokenize_maximal_munch` — the tokens of a text are those of its pieces, and
  between them only separators and comments are left out.
-/

namespace LazyLisp.Token

open Regex

/-! ## Telling patterns apart -/

/-- The characters that a piece of the pattern may begin with. -/
def Pattern.opens : Pattern → Char → Bool
  | .separators, c => isSeparator c
  | .comment, c => c == ';'
  | .leftParen, c => c == '('
  | .rightParen, c => c == ')'
  | .leftBracket, c => c == '['
  | .rightBracket, c => c == ']'
  | .boolean b, c => c == if b then 't' else 'f'
  | .integer, c | .float, c => isDigit c || c == '-'
  | .symbol, c => startsSymbol c
  | .string, c => c == '"'

/-- A match of one character and then some more begins with that character. -/
private theorem opens_of_matches_seq {p : Char → Bool} {a : Regex} {w : List Char}
    (h : (seq (one p) a).Matches w) : ∃ c rest, w = c :: rest ∧ p c = true := by
  obtain ⟨u, v, rfl, hu, -⟩ := matches_seq_iff.mp h
  obtain ⟨c, rfl, hc⟩ := matches_one_iff.mp hu
  exact ⟨c, v, rfl, hc⟩

private theorem opens_of_matches_integer {w : List Char} (h : integerRegex.Matches w) :
    ∃ c rest, w = c :: rest ∧ (isDigit c || c == '-') = true := by
  obtain ⟨digits, rfl | rfl, hne, hall⟩ := matches_integer_iff.mp h
  · cases w with
    | nil => exact absurd rfl hne
    | cons c rest => exact ⟨c, rest, rfl, by simp [hall c (by simp)]⟩
  · exact ⟨'-', digits, rfl, by simp⟩

/-- No pattern matches the empty text. -/
theorem Pattern.opens_of_matches {p : Pattern} {w : List Char} (h : p.regex.Matches w) :
    ∃ c rest, w = c :: rest ∧ p.opens c = true := by
  cases p with
  | separators | comment | symbol | string => exact opens_of_matches_seq h
  | leftParen | rightParen | leftBracket | rightBracket =>
      cases matches_char_iff.mp h
      exact ⟨_, [], rfl, rfl⟩
  | boolean b =>
      cases matches_word_iff.mp h
      cases b <;> exact ⟨_, _, rfl, rfl⟩
  | integer => exact opens_of_matches_integer h
  | float =>
      obtain ⟨u, v, rfl, hu, -⟩ := matches_seq_iff.mp h
      obtain ⟨c, rest, rfl, hc⟩ := opens_of_matches_integer hu
      exact ⟨c, rest ++ v, rfl, hc⟩

/-- The pattern of a piece that is no symbol, as its first character and a
point in it tell. -/
def patternOf : List Char → Pattern
  | [] => .separators
  | c :: rest =>
      if isDigit c || c == '-' then if '.' ∈ c :: rest then .float else .integer
      else
        match c with
        | '(' => .leftParen
        | ')' => .rightParen
        | '[' => .leftBracket
        | ']' => .rightBracket
        | '"' => .string
        | ';' => .comment
        | 't' => .boolean true
        | 'f' => .boolean false
        | _ => .separators

private theorem patternOf_number {c : Char} (h : (isDigit c || c == '-') = true)
    (rest : List Char) : patternOf (c :: rest) = if '.' ∈ c :: rest then .float else .integer := by
  unfold patternOf
  exact if_pos h

private theorem point_not_mem_of_integer {w : List Char} (h : integerRegex.Matches w) :
    '.' ∉ w := by
  obtain ⟨digits, hw, -, hall⟩ := matches_integer_iff.mp h
  have hdigits : '.' ∉ digits := fun hmem => by
    have := hall '.' hmem
    rw [isDigit_point] at this
    cases this
  rcases hw with rfl | rfl
  · exact hdigits
  · simpa using hdigits

/-- Only a symbol can match what another pattern matches. -/
theorem Pattern.eq_patternOf {p : Pattern} {w : List Char} (h : p.regex.Matches w)
    (hp : p ≠ .symbol) : p = patternOf w := by
  obtain ⟨c, rest, rfl, hopens⟩ := Pattern.opens_of_matches h
  cases p with
  | symbol => exact absurd rfl hp
  | separators =>
      simp only [opens, isSeparator, Bool.or_eq_true, beq_iff_eq] at hopens
      rcases hopens with ((rfl | rfl) | rfl) | rfl <;> rfl
  | boolean b => cases b <;> cases beq_iff_eq.mp hopens <;> rfl
  | integer =>
      have hpoint := point_not_mem_of_integer h
      exact (patternOf_number hopens rest).trans (if_neg hpoint) |>.symm
  | float =>
      obtain ⟨u, v, hw, -, hfraction⟩ := matches_seq_iff.mp h
      obtain ⟨u', digits, rfl, hchar, -⟩ := matches_seq_iff.mp hfraction
      cases matches_char_iff.mp hchar
      have hpoint : '.' ∈ c :: rest := by simp [hw]
      exact (patternOf_number hopens rest).trans (if_pos hpoint) |>.symm
  | _ =>
      cases beq_iff_eq.mp hopens
      rfl

/-! ## Pieces -/

/-- Whether a piece is read by this pattern although it spells a symbol as
well. -/
def Pattern.beatsSymbol : Pattern → Bool
  | .boolean _ | .integer | .float => true
  | _ => false

/-- The piece is the longest prefix of the text that any pattern matches, and
this is the pattern that it is read by. -/
structure Pattern.Munches (p : Pattern) (piece text : List Char) : Prop where
  /-- The text begins with the piece. -/
  begins : piece <+: text
  /-- The pattern matches it. -/
  matched : p.regex.Matches piece
  /-- No pattern matches a longer one. -/
  longest : ∀ (q : Pattern) (w : List Char), w <+: text → q.regex.Matches w →
    w.length ≤ piece.length
  /-- It is no symbol if it is a number or a boolean. -/
  wins : p = .symbol → ∀ q : Pattern, q.beatsSymbol = true → ¬ q.regex.Matches piece

/-- No piece is empty. -/
theorem Pattern.Munches.ne_nil {p : Pattern} {piece text : List Char}
    (h : p.Munches piece text) : piece ≠ [] := by
  obtain ⟨c, rest, rfl, -⟩ := opens_of_matches h.matched
  exact List.cons_ne_nil c rest

/-! ### The piece that the scanner picks -/

/-- Comparing one pattern after the other keeps the longest match, and of
equally long ones the first. -/
private theorem foldl_better (text : List Char) (ps : List Pattern) (best : Pattern × Nat) :
    (∀ q ∈ ps, q.reach text ≤ (ps.foldl (better text) best).2) ∧
      best.2 ≤ (ps.foldl (better text) best).2 ∧
        (ps.foldl (better text) best = best ∨
          ∃ before p after, ps = before ++ p :: after ∧
            ps.foldl (better text) best = (p, p.reach text) ∧ best.2 < p.reach text ∧
              ∀ q ∈ before, q.reach text < p.reach text) := by
  induction ps generalizing best with
  | nil => simp
  | cons p rest ih =>
      obtain ⟨hall, hbest, hfirst⟩ := ih (better text best p)
      rw [List.foldl_cons]
      by_cases hlt : best.2 < p.reach text
      · have hbetter : better text best p = (p, p.reach text) := if_pos hlt
        rw [hbetter] at hall hbest hfirst ⊢
        refine ⟨List.forall_mem_cons.mpr ⟨hbest, hall⟩, by omega, .inr ?_⟩
        rcases hfirst with heq | ⟨before, q, after, rfl, heq, hq, hbefore⟩
        · exact ⟨[], p, rest, rfl, heq, hlt, by simp⟩
        · refine ⟨p :: before, q, after, rfl, heq, by omega, ?_⟩
          exact List.forall_mem_cons.mpr ⟨hq, hbefore⟩
      · have hbetter : better text best p = best := if_neg hlt
        rw [hbetter] at hall hbest hfirst ⊢
        refine ⟨List.forall_mem_cons.mpr ⟨by omega, hall⟩, hbest, ?_⟩
        rcases hfirst with heq | ⟨before, q, after, rfl, heq, hq, hbefore⟩
        · exact .inl heq
        · refine .inr ⟨p :: before, q, after, rfl, heq, hq, ?_⟩
          exact List.forall_mem_cons.mpr ⟨by omega, hbefore⟩

theorem Pattern.mem_all (p : Pattern) : p ∈ Pattern.all := by
  cases p with
  | boolean b => cases b <;> decide
  | _ => decide

/-- No pattern reaches farther than the longest match. -/
theorem reach_le_longest (p : Pattern) (text : List Char) : p.reach text ≤ (longest text).2 :=
  (foldl_better text Pattern.all _).1 p p.mem_all

/-- The pattern of the longest match reaches that far, and a number or a
boolean reaches less far than a symbol that was chosen. -/
theorem longest_pattern {text : List Char} (hpos : 0 < (longest text).2) :
    (longest text).1.reach text = (longest text).2 ∧
      ((longest text).1 = .symbol → ∀ q : Pattern, q.beatsSymbol = true →
        q.reach text < (longest text).2) := by
  rcases (foldl_better text Pattern.all (.separators, 0)).2.2 with heq | hfirst
  · rw [longest, heq] at hpos
    exact absurd hpos (Nat.lt_irrefl 0)
  · obtain ⟨before, p, after, hall, heq, -, hbefore⟩ := hfirst
    rw [longest, heq]
    refine ⟨rfl, fun hp q hq => hbefore q ?_⟩
    have hp : p = .symbol := hp
    subst hp
    have hmem : q ∈ before ++ .symbol :: after := hall ▸ q.mem_all
    have hafter : q ∉ after := by
      intro hmem
      have hsub : List.Sublist [.symbol, q] Pattern.all := by
        rw [hall]
        exact ((List.singleton_sublist.mpr hmem).cons_cons _).trans
          (List.sublist_append_right _ _)
      cases q with
      | boolean b => cases b <;> exact absurd hsub (by decide)
      | integer | float => exact absurd hsub (by decide)
      | _ => cases hq
    have hne : q ≠ .symbol := by
      rintro rfl
      cases hq
    simpa [hafter, hne] using hmem

/-- A pattern that is no symbol and matches what a symbol matches beats it. -/
theorem Pattern.beatsSymbol_of_matches {p : Pattern} {w : List Char} (h : p.regex.Matches w)
    (hsymbol : (Pattern.regex .symbol).Matches w) (hp : p ≠ .symbol) : p.beatsSymbol = true := by
  obtain ⟨c, rest, rfl, hopens⟩ := Pattern.opens_of_matches h
  obtain ⟨c', rest', heq, hstarts⟩ := Pattern.opens_of_matches hsymbol
  cases heq
  cases p with
  | symbol => exact absurd rfl hp
  | boolean | integer | float => rfl
  | separators =>
      simp only [opens, isSeparator, Bool.or_eq_true, beq_iff_eq] at hopens
      rcases hopens with ((rfl | rfl) | rfl) | rfl <;> exact absurd hstarts (by decide)
  | _ =>
      cases beq_iff_eq.mp hopens
      exact absurd hstarts (by decide)

/-- The scanner picks the piece that is munched. -/
theorem munches_iff {p : Pattern} {piece text : List Char} :
    p.Munches piece text ↔ 0 < (longest text).2 ∧ p = (longest text).1 ∧
      piece = text.take (longest text).2 := by
  constructor
  · -- neither piece can be longer than the other, and only symbols share their pieces
    intro h
    obtain ⟨rest, htext⟩ := h.begins
    have hreach := (p.measures_reach text).longest piece rest htext.symm h.matched
    have hpiece := List.length_pos_iff.mpr h.ne_nil
    have hle := reach_le_longest p text
    have hpos : 0 < (longest text).2 := by omega
    obtain ⟨hchosen, hsymbol⟩ := longest_pattern hpos
    have hmatched := ((longest text).1.measures_reach text).matched (by omega)
    rw [hchosen] at hmatched
    have hlongest := h.longest _ _ (List.take_prefix _ _) hmatched
    rw [List.length_take_of_le (longest_le_length text)] at hlongest
    have hlength : piece.length = (longest text).2 := by omega
    have htake : piece = text.take (longest text).2 := by
      rw [← hlength]
      exact List.prefix_iff_eq_take.mp h.begins
    refine ⟨hpos, ?_, htake⟩
    rw [← htake] at hmatched
    by_cases hp : p = .symbol <;> by_cases hbest : (longest text).1 = .symbol
    · rw [hp, hbest]
    · subst hp
      exact absurd hmatched (h.wins rfl _ (Pattern.beatsSymbol_of_matches hmatched h.matched hbest))
    · rw [hbest] at hmatched
      have hbeats := hsymbol hbest p (Pattern.beatsSymbol_of_matches h.matched hmatched hp)
      omega
    · rw [Pattern.eq_patternOf h.matched hp, Pattern.eq_patternOf hmatched hbest]
  · rintro ⟨hpos, rfl, rfl⟩
    obtain ⟨hchosen, hsymbol⟩ := longest_pattern hpos
    have hmatched := ((longest text).1.measures_reach text).matched (by omega)
    rw [hchosen] at hmatched
    have hlength := List.length_take_of_le (longest_le_length text)
    refine ⟨List.take_prefix _ _, hmatched, ?_, ?_⟩
    · rintro q w ⟨rest, hw⟩ hq
      have hreach := (q.measures_reach text).longest w rest hw.symm hq
      have hle := reach_le_longest q text
      omega
    · intro hbest q hq hmatch
      have hreach := (q.measures_reach text).longest _ _ (List.take_append_drop _ _).symm hmatch
      have hlt := hsymbol hbest q hq
      omega

/-- As long as it is an integer a piece is no symbol, and with one more letter
it is. -/
example : longest ['-', '5', ' '] = (.integer, 2) ∧ longest ['-', '5', 'x'] = (.symbol, 3) := by
  decide

/-- No pattern matches where the scanner finds nothing. -/
theorem longest_eq_zero_iff {text : List Char} : (longest text).2 = 0 ↔
    ∀ (p : Pattern) (w : List Char), w <+: text → ¬ p.regex.Matches w := by
  constructor
  · rintro hzero p w ⟨rest, hw⟩ hmatch
    have hreach := (p.measures_reach text).longest w rest hw.symm hmatch
    have hle := reach_le_longest p text
    obtain ⟨c, more, rfl, -⟩ := Pattern.opens_of_matches hmatch
    simp only [List.length_cons] at hreach
    omega
  · intro hnone
    by_cases hpos : 0 < (longest text).2
    · have hmunches := munches_iff.mpr ⟨hpos, rfl, rfl⟩
      exact absurd hmunches.matched (hnone _ _ hmunches.begins)
    · omega

/-! ## Cutting a text -/

/-- Cutting a text that begins at a byte offset: the tokens of the pieces cut
off so far, the offset of what is left, and what is left. -/
inductive Cut : Nat → List Char → List Token → Nat → List Char → Prop where
  | done (offset : Nat) (text : List Char) : Cut offset text [] offset text
  /-- A piece that spells no token is passed over. -/
  | skip {p : Pattern} {offset stop : Nat} {piece rest left : List Char} {ts : List Token}
      (hpiece : p.Munches piece (piece ++ rest)) (hskip : ofPiece p piece = .ok none)
      (hrest : Cut (offset + Text.byteLength piece) rest ts stop left) :
      Cut offset (piece ++ rest) ts stop left
  | token {p : Pattern} {kind : Kind} {offset stop : Nat} {piece rest left : List Char}
      {ts : List Token}
      (hpiece : p.Munches piece (piece ++ rest)) (htoken : ofPiece p piece = .ok (some kind))
      (hrest : Cut (offset + Text.byteLength piece) rest ts stop left) :
      Cut offset (piece ++ rest) (⟨kind, ⟨offset, offset + Text.byteLength piece⟩⟩ :: ts) stop left

/-- Why no further piece can be cut off a text that begins at a byte offset. -/
inductive Stuck : Nat → List Char → Error → Prop where
  /-- No pattern matches at the first character. -/
  | invalid {offset : Nat} {c : Char} {rest : List Char}
      (hnone : ∀ (p : Pattern) (w : List Char), w <+: c :: rest → ¬ p.regex.Matches w) :
      Stuck offset (c :: rest) ⟨.invalidToken, ⟨offset, offset + c.utf8Size⟩⟩
  /-- The longest piece is no literal that has a value. -/
  | fault {p : Pattern} {offset : Nat} {piece rest : List Char} {fault : Fault}
      (hpiece : p.Munches piece (piece ++ rest)) (hfault : ofPiece p piece = .error fault) :
      Stuck offset (piece ++ rest) ⟨fault, ⟨offset, offset + Text.byteLength piece⟩⟩

/-- What is left of a text that is cut begins at its offset. -/
theorem Cut.exists_before {offset stop : Nat} {text left : List Char} {ts : List Token}
    (h : Cut offset text ts stop left) :
    ∃ before, text = before ++ left ∧ stop = offset + Text.byteLength before := by
  induction h with
  | done => exact ⟨[], rfl, rfl⟩
  | @skip p offset stop piece _ _ _ _ _ _ ih | @token p kind offset stop piece _ _ _ _ _ _ ih =>
      obtain ⟨before, rfl, hstop⟩ := ih
      refine ⟨piece ++ before, (List.append_assoc _ _ _).symm, ?_⟩
      rw [hstop, Text.byteLength_append, Nat.add_assoc]

/-- Cutting goes on where it ended. -/
theorem Cut.trans {offset mid stop : Nat} {text between left : List Char} {ts us : List Token}
    (h : Cut offset text ts mid between) (hmore : Cut mid between us stop left) :
    Cut offset text (ts ++ us) stop left := by
  induction h with
  | done => exact hmore
  | skip hpiece hskip _ ih => exact .skip hpiece hskip (ih hmore)
  | token hpiece htoken _ ih => exact .token hpiece htoken (ih hmore)

/-! ### The scanner cuts -/

private theorem longest_of_munches {p : Pattern} {piece rest : List Char}
    (h : p.Munches piece (piece ++ rest)) : longest (piece ++ rest) = (p, piece.length) := by
  obtain ⟨-, hp, htake⟩ := munches_iff.mp h
  have hlength := congrArg List.length htake
  rw [List.length_take_of_le (longest_le_length _)] at hlength
  exact Prod.ext hp.symm hlength.symm

/-- What the scanner does with the piece that is munched. -/
theorem scan_munches {p : Pattern} {piece rest : List Char} (h : p.Munches piece (piece ++ rest))
    (offset : Nat) :
    scan offset (piece ++ rest) =
      match ofPiece p piece with
      | .error fault => .error ⟨fault, ⟨offset, offset + Text.byteLength piece⟩⟩
      | .ok none => scan (offset + Text.byteLength piece) rest
      | .ok (some kind) => (scan (offset + Text.byteLength piece) rest).map
          (⟨kind, ⟨offset, offset + Text.byteLength piece⟩⟩ :: ·) := by
  have hlongest := longest_of_munches h
  have htake : (piece ++ rest).take piece.length = piece := List.take_left
  have hdrop : (piece ++ rest).drop piece.length = rest := List.drop_left
  cases hpiece : piece with
  | nil => exact absurd hpiece h.ne_nil
  | cons c more =>
      rw [hpiece] at hlongest htake hdrop
      rw [List.cons_append] at hlongest htake hdrop ⊢
      have hlength : (c :: more).length ≠ 0 := by simp
      rw [scan, hlongest]
      cases hvalue : ofPiece p (c :: more) with
      | error fault => simp only [hlength, if_false, htake, hvalue]
      | ok word =>
          cases word with
          | none => simp only [hlength, if_false, htake, hdrop, hvalue]
          | some kind => simp only [hlength, if_false, htake, hdrop, hvalue]

/-- A scan goes over the pieces of a cut and on from behind them. -/
theorem Cut.scan_eq {offset stop : Nat} {text left : List Char} {ts : List Token}
    (h : Cut offset text ts stop left) :
    scan offset text = (scan stop left).map (ts ++ ·) := by
  induction h with
  | done offset text => cases scan offset text <;> rfl
  | skip hpiece hskip _ ih => rw [scan_munches hpiece, hskip, ih]
  | @token _ _ _ stop _ _ left _ hpiece htoken _ ih =>
      rw [scan_munches hpiece, htoken, ih]
      cases scan stop left <;> rfl

/-- Where the text is stuck the scan ends with that error. -/
theorem Stuck.scan_eq {offset : Nat} {text : List Char} {e : Error} (h : Stuck offset text e) :
    scan offset text = .error e := by
  cases h with
  | invalid hnone => exact scan_invalid (longest_eq_zero_iff.mpr hnone) offset
  | fault hpiece hfault => rw [scan_munches hpiece, hfault]

/-- A cut of the whole text is what the scan gives. -/
theorem Cut.scan_end {offset stop : Nat} {text : List Char} {ts : List Token}
    (h : Cut offset text ts stop []) : scan offset text = .ok ts := by
  rw [h.scan_eq, scan_nil]
  exact congrArg Except.ok (List.append_nil ts)

/-- A cut up to where the text is stuck ends the scan there. -/
theorem Cut.scan_stuck {offset stop : Nat} {text left : List Char} {ts : List Token} {e : Error}
    (h : Cut offset text ts stop left) (hstuck : Stuck stop left e) :
    scan offset text = .error e := by
  rw [h.scan_eq, hstuck.scan_eq]
  rfl

/-- Every text can be cut up to its end or to an error. -/
theorem exists_cut (offset : Nat) (text : List Char) :
    ∃ ts stop left, Cut offset text ts stop left ∧ (left = [] ∨ ∃ e, Stuck stop left e) := by
  -- on the length of what is left, since a piece is never empty
  induction hlength : text.length using Nat.strongRecOn generalizing offset text with
  | ind n ih =>
      by_cases hzero : (longest text).2 = 0
      · refine ⟨[], offset, text, .done offset text, ?_⟩
        cases text with
        | nil => exact .inl rfl
        | cons c rest => exact .inr ⟨_, .invalid (longest_eq_zero_iff.mp hzero)⟩
      · have hmunches := munches_iff.mpr ⟨Nat.pos_of_ne_zero hzero, rfl, rfl⟩
        obtain ⟨rest, htext⟩ := hmunches.begins
        generalize (longest text).1 = p, text.take (longest text).2 = piece at hmunches htext
        subst htext
        have hshorter : rest.length < n := by
          have hpiece := List.length_pos_iff.mpr hmunches.ne_nil
          simp only [List.length_append] at hlength
          omega
        cases hvalue : ofPiece p piece with
        | error fault =>
            exact ⟨[], offset, piece ++ rest, .done _ _, .inr ⟨_, .fault hmunches hvalue⟩⟩
        | ok word =>
            obtain ⟨ts, stop, left, hcut, hend⟩ :=
              ih rest.length hshorter (offset + Text.byteLength piece) rest rfl
            cases word with
            | none => exact ⟨ts, stop, left, .skip hmunches hvalue hcut, hend⟩
            | some kind => exact ⟨_, stop, left, .token hmunches hvalue hcut, hend⟩

/-- A scan succeeds exactly if the whole text can be cut. -/
theorem scan_eq_ok_iff {offset : Nat} {text : List Char} {ts : List Token} :
    scan offset text = .ok ts ↔ ∃ stop, Cut offset text ts stop [] := by
  constructor
  · intro h
    obtain ⟨ts', stop, left, hcut, rfl | ⟨e, hstuck⟩⟩ := exists_cut offset text
    · cases hcut.scan_end.symm.trans h
      exact ⟨stop, hcut⟩
    · cases (hcut.scan_stuck hstuck).symm.trans h
  · rintro ⟨stop, hcut⟩
    exact hcut.scan_end

/-- A scan fails exactly if a cut leads to where the text is stuck. -/
theorem scan_eq_error_iff {offset : Nat} {text : List Char} {e : Error} :
    scan offset text = .error e ↔
      ∃ ts stop left, Cut offset text ts stop left ∧ Stuck stop left e := by
  constructor
  · intro h
    obtain ⟨ts, stop, left, hcut, rfl | ⟨e', hstuck⟩⟩ := exists_cut offset text
    · cases hcut.scan_end.symm.trans h
    · cases (hcut.scan_stuck hstuck).symm.trans h
      exact ⟨ts, stop, left, hcut, hstuck⟩
  · rintro ⟨ts, stop, left, hcut, hstuck⟩
    exact hcut.scan_stuck hstuck

/-! ### Where tokens stand -/

/-- What may stand between tokens: separators and comments. -/
def gap : Regex := many (either (Pattern.regex .separators) (Pattern.regex .comment))

/-- The tokens stand in a text that begins at a byte offset one after the
other, with only separators and comments before, between and after them. -/
inductive Laid : Nat → List Char → List Token → Prop where
  | last {offset : Nat} {space : List Char} (hspace : gap.Matches space) : Laid offset space []
  | next {offset start stop : Nat} {space piece rest : List Char} {kind : Kind} {ts : List Token}
      (hspace : gap.Matches space) (hpiece : piece ≠ [])
      (hstart : start = offset + Text.byteLength space)
      (hstop : stop = start + Text.byteLength piece) (hrest : Laid stop rest ts) :
      Laid offset (space ++ (piece ++ rest)) (⟨kind, ⟨start, stop⟩⟩ :: ts)

/-- Separators or a comment in front widen the first gap. -/
theorem Laid.widen {offset : Nat} {piece rest : List Char} {ts : List Token}
    (hpiece : (either (Pattern.regex .separators) (Pattern.regex .comment)).Matches piece)
    (h : Laid (offset + Text.byteLength piece) rest ts) : Laid offset (piece ++ rest) ts := by
  cases h with
  | last hspace => exact .last (.more hpiece hspace)
  | next hspace hne hstart hstop hrest =>
      rw [← List.append_assoc]
      refine .next (.more hpiece hspace) hne ?_ hstop hrest
      rw [hstart, Text.byteLength_append, Nat.add_assoc]

/-- A piece that gives no token is made of separators, or it is a comment. -/
theorem matches_gap_of_ofPiece {p : Pattern} {piece : List Char} (h : p.regex.Matches piece)
    (hskip : ofPiece p piece = .ok none) :
    (either (Pattern.regex .separators) (Pattern.regex .comment)).Matches piece := by
  cases p with
  | separators => exact .left h
  | comment => exact .right h
  | integer =>
      simp only [ofPiece] at hskip
      split at hskip <;> cases hskip
  | string =>
      simp only [ofPiece] at hskip
      cases hvalue : stringValue piece <;> rw [hvalue] at hskip <;> cases hskip
  | _ => cases hskip

/-- The tokens of a text that is cut up are laid out in it. -/
theorem Cut.laid {offset stop : Nat} {text left : List Char} {ts : List Token}
    (h : Cut offset text ts stop left) (hleft : left = []) : Laid offset text ts := by
  induction h with
  | done offset text => exact hleft ▸ .last .stop
  | skip hpiece hskip _ ih => exact (ih hleft).widen (matches_gap_of_ofPiece hpiece.matched hskip)
  | token hpiece _ _ ih =>
      have hspace : gap.Matches [] := .stop
      exact .next hspace hpiece.ne_nil rfl rfl (ih hleft)

/-- Each token takes up whole characters of the text. -/
theorem Laid.boundaries {offset : Nat} {text : List Char} {ts : List Token}
    (h : Laid offset text ts) : ∀ t ∈ ts, ∃ before piece after,
      text = before ++ piece ++ after ∧ piece ≠ [] ∧
        t.span.start = offset + Text.byteLength before ∧
          t.span.stop = t.span.start + Text.byteLength piece := by
  induction h with
  | last => simp
  | @next offset start stop space piece rest kind ts _ hpiece hstart hstop _ ih =>
      refine List.forall_mem_cons.mpr ⟨?_, fun t ht => ?_⟩
      · exact ⟨space, piece, rest, (List.append_assoc _ _ _).symm, hpiece, hstart, hstop⟩
      · obtain ⟨before, word, after, rfl, hword, hfirst, hlast⟩ := ih t ht
        refine ⟨space ++ piece ++ before, word, after, by simp, hword, ?_, hlast⟩
        simp only [hfirst, hstop, hstart, Text.byteLength_append]
        omega

/-- No token ends after the next one begins. -/
theorem Laid.pairwise {offset : Nat} {text : List Char} {ts : List Token}
    (h : Laid offset text ts) : ts.Pairwise fun t u => t.span.stop ≤ u.span.start := by
  induction h with
  | last => exact .nil
  | next _ _ _ _ hrest ih =>
      refine .cons (fun t ht => ?_) ih
      obtain ⟨before, _, _, -, -, hstart, -⟩ := hrest.boundaries t ht
      simp only [hstart]
      omega

/-- The tokens of a text are those of its pieces, cut off from left to right
by maximal munch, and its error is the one where the cutting ends.  So tokens
take up one or more whole characters each, follow each other without overlap,
and leave only separators and comments between them. -/
theorem tokenize_maximal_munch (source : String) :
    (∀ ts, tokenize source = .ok ts ↔ ∃ stop, Cut 0 source.toList ts stop []) ∧
    (∀ e, tokenize source = .error e ↔
      ∃ ts stop left, Cut 0 source.toList ts stop left ∧ Stuck stop left e) ∧
    ∀ ts, tokenize source = .ok ts →
      Laid 0 source.toList ts ∧
      (∀ t ∈ ts, t.span.start < t.span.stop) ∧
      (ts.Pairwise fun t u => t.span.stop ≤ u.span.start) ∧
      ∀ t ∈ ts, ∃ before piece after, source.toList = before ++ piece ++ after ∧
        t.span = ⟨Text.byteLength before, Text.byteLength (before ++ piece)⟩ := by
  refine ⟨fun ts => scan_eq_ok_iff, fun e => scan_eq_error_iff, fun ts h => ?_⟩
  obtain ⟨stop, hcut⟩ := scan_eq_ok_iff.mp h
  have hlaid := hcut.laid rfl
  refine ⟨hlaid, fun t ht => ?_, hlaid.pairwise, fun t ht => ?_⟩
  all_goals obtain ⟨before, piece, after, htext, hpiece, hstart, hstop⟩ := hlaid.boundaries t ht
  · have hpos := Text.byteLength_pos hpiece
    omega
  · refine ⟨before, piece, after, htext, ?_⟩
    rw [Nat.zero_add] at hstart
    rw [Text.byteLength_append, ← hstart, ← hstop]

end LazyLisp.Token
