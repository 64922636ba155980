import LazyLisp.Proofs.Lexing.Regex
import LazyLisp.Token.Pattern

/-!
# How far patterns reach

Each pattern is declared by a regular expression.  The lexer does not run
these: for every pattern it has a function that measures the match at the
beginning of a text (`Pattern.reach`).  This module proves that each function
measures the longest match of its expression.

The measuring functions look at a character once and never go back.  That
this loses no longer match has one reason throughout: what ends a run over a
class cannot begin the part of the expression that follows it.  The string is
the one expression with a choice in it, and there the first character tells
the alternatives apart.

## Main results

* `Pattern.measures_reach` — a pattern reaches as far as its longest match.
* `integerReach_append` — a run over digits goes on where an integer ends.
-/

namespace LazyLisp.Token

open Regex

/-! ## The declared expressions -/

/-- The digits of a number, with a minus sign or without: `-?[0-9]+`. -/
def integerRegex : Regex := seq (optional (char '-')) (plus (one isDigit))

/-- One unit of a string's body: a plain character, or a backslash with any
character but a line feed, `[^"\\]|\\.`. -/
def bodyUnit : Regex :=
  either (one fun c => c != '"' && c != '\\') (seq (char '\\') (one (· != '\n')))

/-- A string after its opening quote: its body, and one more character that
should be the closing quote, `([^"\\]|\\.)*.?`. -/
def stringRest : Regex := seq (many bodyUnit) (optional (one (· != '\n')))

/-- The expression that a pattern is declared by. -/
def Pattern.regex : Pattern → Regex
  | .separators => plus (one isSeparator)
  | .comment => seq (char ';') (many (one fun c => !endsComment c))
  | .leftParen => char '('
  | .rightParen => char ')'
  | .leftBracket => char '['
  | .rightBracket => char ']'
  | .boolean b => word (booleanWord b)
  | .integer => integerRegex
  | .float => seq integerRegex (seq (char '.') (plus (one isDigit)))
  | .symbol => seq (one startsSymbol) (many (one continuesSymbol))
  | .string => seq (char '"') stringRest

/-! ## Measuring -/

/-- The number is the length of the longest match at the beginning of the
text; zero if nothing but the empty text matches there. -/
structure Measures (r : Regex) (n : Nat) (text : List Char) : Prop where
  matched : 0 < n → r.Matches (text.take n)
  longest : ∀ w rest, text = w ++ rest → r.Matches w → w.length ≤ n

/-! ### Runs over a class -/

section Run

variable {p : Char → Bool} {w rest : List Char}

/-- The run is the longest beginning of this class. -/
theorem take_run (p : Char → Bool) (cs : List Char) :
    cs.take (run p cs) = cs.takeWhile p :=
  (List.prefix_iff_eq_take.mp (List.takeWhile_prefix p)).symm

theorem forall_mem_take_run (p : Char → Bool) (cs : List Char) :
    ∀ c ∈ cs.take (run p cs), p c = true := by
  intro c hc
  rw [take_run] at hc
  exact List.all_eq_true.mp List.all_takeWhile c hc

/-- A run goes on behind a text of its class. -/
theorem run_append (h : ∀ c ∈ w, p c = true) (rest : List Char) :
    run p (w ++ rest) = w.length + run p rest := by
  rw [run, run, List.takeWhile_append_of_pos h, List.length_append]

theorem length_le_run (h : ∀ c ∈ w, p c = true) (rest : List Char) :
    w.length ≤ run p (w ++ rest) := by
  rw [run_append h]
  exact Nat.le_add_right _ _

private theorem run_cons (c : Char) (rest : List Char) :
    run p (c :: rest) = if p c then 1 + run p rest else 0 := by
  simp only [run, List.takeWhile_cons]
  split <;> simp [Nat.add_comm]

end Run

/-! ### Patterns without a choice -/

/-- A run measures a repetition of its class. -/
theorem measures_plus_one (p : Char → Bool) (text : List Char) :
    Measures (plus (one p)) (run p text) text where
  matched hpos := by
    refine matches_plus_one_iff.mpr ⟨fun hnil => ?_, forall_mem_take_run p text⟩
    rw [take_run] at hnil
    simp [run, hnil] at hpos
  longest := by
    rintro w rest rfl hw
    exact length_le_run (matches_plus_one_iff.mp hw).2 rest

/-- One character of a class and then a run over another. -/
theorem measures_one_many (q p : Char → Bool) (c : Char) (text : List Char) :
    Measures (seq (one q) (many (one p))) (if q c then 1 + run p text else 0) (c :: text) where
  matched hpos := by
    by_cases hc : q c = true
    · rw [if_pos hc, Nat.add_comm, List.take_succ_cons]
      exact .seq (.one hc) (matches_many_one_iff.mpr (forall_mem_take_run p text))
    · rw [if_neg hc] at hpos
      exact absurd hpos (Nat.lt_irrefl 0)
  longest := by
    intro w rest htext hw
    obtain ⟨u, v, rfl, hu, hv⟩ := matches_seq_iff.mp hw
    obtain ⟨d, rfl, hd⟩ := matches_one_iff.mp hu
    simp only [List.cons_append, List.nil_append, List.cons.injEq] at htext
    obtain ⟨rfl, rfl⟩ := htext
    have hrun := length_le_run (matches_many_one_iff.mp hv) rest
    rw [if_pos hd]
    simp only [List.cons_append, List.nil_append, List.length_cons]
    omega

theorem measures_zero_nil {r : Regex} : Measures r 0 [] where
  matched hpos := absurd hpos (Nat.lt_irrefl 0)
  longest := by
    intro w rest htext _
    obtain ⟨rfl, -⟩ := List.append_eq_nil_iff.mp htext.symm
    exact Nat.le_refl 0

private theorem measures_comment (text : List Char) :
    Measures (Pattern.regex .comment) (commentReach text) text := by
  cases text with
  | nil => exact measures_zero_nil
  | cons c rest =>
      have hmeasures : Measures (Pattern.regex .comment)
          (if c == ';' then 1 + run (fun c => !endsComment c) rest else 0) (c :: rest) :=
        measures_one_many (· == ';') (fun c => !endsComment c) c rest
      have hreach : commentReach (c :: rest) =
          if c == ';' then 1 + run (fun c => !endsComment c) rest else 0 := by
        by_cases hc : c = ';'
        · subst hc
          rfl
        · rw [commentReach, if_neg (by simpa using hc)]
          exact fun tail htail => hc (List.cons.inj htail).1
      rw [hreach]
      exact hmeasures

private theorem measures_symbol (text : List Char) :
    Measures (Pattern.regex .symbol) (symbolReach text) text := by
  cases text with
  | nil => exact measures_zero_nil
  | cons c rest => exact measures_one_many startsSymbol continuesSymbol c rest

/-- A fixed word reaches to its end or nowhere. -/
theorem measures_word (word text : List Char) :
    Measures (Regex.word word) (wordReach word text) text where
  matched hpos := by
    unfold wordReach at hpos ⊢
    split
    · rename_i hprefix
      obtain ⟨rest, rfl⟩ := List.isPrefixOf_iff_prefix.mp hprefix
      rw [List.take_left]
      exact matches_word_iff.mpr rfl
    · rename_i hprefix
      rw [if_neg hprefix] at hpos
      exact absurd hpos (Nat.lt_irrefl 0)
  longest := by
    rintro w rest rfl hw
    cases matches_word_iff.mp hw
    have hreach : wordReach word (word ++ rest) = word.length :=
      if_pos (List.isPrefixOf_iff_prefix.mpr (List.prefix_append word rest))
    exact Nat.le_of_eq hreach.symm

private theorem measures_character (wanted : Char) (text : List Char) :
    Measures (char wanted) (characterReach wanted text) text := by
  have hword := measures_word [wanted] text
  have hreach : wordReach [wanted] text = characterReach wanted text := by
    cases text with
    | nil => simp [wordReach, characterReach]
    | cons c rest =>
        by_cases hc : c = wanted
        · simp [wordReach, characterReach, hc]
        · have hne : wanted ≠ c := fun h => hc h.symm
          simp [wordReach, characterReach, hc, hne]
  rw [hreach] at hword
  refine ⟨fun hpos => ?_, fun w rest htext hw => hword.longest w rest htext ?_⟩
  · simpa using hword.matched hpos
  · simpa using hw

/-! ### Numbers -/

theorem isDigit_minus : isDigit '-' = false := by decide

theorem isDigit_point : isDigit '.' = false := by decide

/-- A text of digits, with a minus sign or without. -/
theorem matches_integer_iff {w : List Char} :
    integerRegex.Matches w ↔ ∃ digits, (w = digits ∨ w = '-' :: digits) ∧ digits ≠ [] ∧
      ∀ c ∈ digits, isDigit c = true := by
  constructor
  · intro h
    obtain ⟨u, digits, rfl, hsign, hdigits⟩ := matches_seq_iff.mp h
    obtain ⟨hne, hall⟩ := matches_plus_one_iff.mp hdigits
    rcases matches_optional_iff.mp hsign with hminus | rfl
    · cases matches_char_iff.mp hminus
      exact ⟨digits, .inr rfl, hne, hall⟩
    · exact ⟨digits, .inl rfl, hne, hall⟩
  · rintro ⟨digits, rfl | rfl, hne, hall⟩
    · exact .seq (u := []) (.right .empty) (matches_plus_one_iff.mpr ⟨hne, hall⟩)
    · have hminus : (char '-').Matches ['-'] := matches_char_iff.mpr rfl
      exact .seq (.left hminus) (matches_plus_one_iff.mpr ⟨hne, hall⟩)

theorem integerReach_minus (rest : List Char) :
    integerReach ('-' :: rest) = if run isDigit rest = 0 then 0 else 1 + run isDigit rest := rfl

theorem integerReach_of_ne {text : List Char} (h : ∀ rest, text ≠ '-' :: rest) :
    integerReach text = run isDigit text := by
  rw [integerReach]
  exact h

theorem run_pos {p : Char → Bool} {w : List Char} (hne : w ≠ []) (h : ∀ c ∈ w, p c = true)
    (rest : List Char) : 0 < run p (w ++ rest) :=
  Nat.lt_of_lt_of_le (List.length_pos_iff.mpr hne) (length_le_run h rest)

/-- What an integer reaches over its own digits and the ones after them. -/
theorem integerReach_append {w : List Char} (hw : integerRegex.Matches w) (rest : List Char) :
    integerReach (w ++ rest) = w.length + run isDigit rest := by
  obtain ⟨digits, rfl | rfl, hne, hall⟩ := matches_integer_iff.mp hw
  · have hminus (tail : List Char) : w ++ rest ≠ '-' :: tail := by
      cases w with
      | nil => exact absurd rfl hne
      | cons c more =>
          rintro ⟨⟩
          have hdigit := hall '-' (by simp)
          rw [isDigit_minus] at hdigit
          cases hdigit
    rw [integerReach_of_ne hminus, run_append hall]
  · have hpos := run_pos hne hall rest
    rw [List.cons_append, integerReach_minus, if_neg (by omega), run_append hall]
    simp only [List.length_cons]
    omega

/-- An integer reaches as far as its digits do, behind a minus sign if there is
one. -/
theorem measures_integer (text : List Char) :
    Measures integerRegex (integerReach text) text where
  matched hpos := by
    refine matches_integer_iff.mpr ?_
    by_cases hminus : ∃ rest, text = '-' :: rest
    · obtain ⟨rest, rfl⟩ := hminus
      rw [integerReach_minus] at hpos ⊢
      by_cases hzero : run isDigit rest = 0
      · simp [hzero] at hpos
      · have hmatch := (measures_plus_one isDigit rest).matched (by omega)
        rw [if_neg hzero, Nat.add_comm, List.take_succ_cons]
        exact ⟨_, .inr rfl, matches_plus_one_iff.mp hmatch⟩
    · rw [integerReach_of_ne fun rest h => hminus ⟨rest, h⟩] at hpos ⊢
      exact ⟨_, .inl rfl, matches_plus_one_iff.mp ((measures_plus_one isDigit text).matched hpos)⟩
  longest := by
    rintro w rest rfl hw
    rw [integerReach_append hw]
    exact Nat.le_add_right _ _

private theorem measures_fraction (text : List Char) :
    Measures (seq (char '.') (plus (one isDigit))) (fractionReach text) text where
  matched hpos := by
    by_cases hpoint : ∃ rest, text = '.' :: rest
    · obtain ⟨rest, rfl⟩ := hpoint
      simp only [fractionReach] at hpos ⊢
      by_cases hzero : run isDigit rest = 0
      · simp [hzero] at hpos
      · rw [if_neg hzero, Nat.add_comm, List.take_succ_cons]
        have hmatch := (measures_plus_one isDigit rest).matched (by omega)
        exact .seq (u := ['.']) (matches_char_iff.mpr rfl) hmatch
    · have hzero : fractionReach text = 0 := by
        rw [fractionReach]
        exact fun rest h => hpoint ⟨rest, h⟩
      omega
  longest := by
    rintro w rest rfl hw
    obtain ⟨u, digits, rfl, hu, hdigits⟩ := matches_seq_iff.mp hw
    cases matches_char_iff.mp hu
    obtain ⟨hne, hall⟩ := matches_plus_one_iff.mp hdigits
    have hpos := run_pos hne hall rest
    have hrun := length_le_run hall rest
    simp only [List.cons_append, List.nil_append, fractionReach, List.length_cons]
    rw [if_neg (by omega)]
    omega

/-- The whole part of a float is an integer, and ends at the point. -/
theorem measures_float (text : List Char) :
    Measures (Pattern.regex .float) (floatReach text) text where
  matched hpos := by
    unfold floatReach at hpos ⊢
    by_cases hwhole : integerReach text = 0
    · simp [hwhole] at hpos
    · by_cases hfraction : fractionReach (text.drop (integerReach text)) = 0
      · simp [hfraction] at hpos
      · rw [if_neg hwhole, if_neg hfraction, List.take_add]
        exact .seq ((measures_integer text).matched (by omega))
          ((measures_fraction _).matched (by omega))
  longest := by
    rintro w rest rfl hw
    obtain ⟨whole, fraction, rfl, hinteger, hfraction⟩ := matches_seq_iff.mp hw
    have hbound := (measures_fraction (fraction ++ rest)).longest fraction rest rfl hfraction
    obtain ⟨u, digits, rfl, hu, hdigits⟩ := matches_seq_iff.mp hfraction
    cases matches_char_iff.mp hu
    have hwhole : integerReach (whole ++ ('.' :: digits ++ rest)) = whole.length := by
      rw [integerReach_append hinteger, List.cons_append, run_cons, isDigit_point]
      simp
    have hne : whole.length ≠ 0 := by
      obtain ⟨ds, rfl | rfl, hne, -⟩ := matches_integer_iff.mp hinteger
      · exact fun h => hne (List.length_eq_zero_iff.mp h)
      · simp
    simp only [List.cons_append, List.nil_append] at hbound
    simp only [List.append_assoc, List.cons_append, List.nil_append, floatReach]
    simp only [List.cons_append] at hwhole
    rw [hwhole, if_neg hne, List.drop_left]
    have hlength : ('.' :: digits).length = digits.length + 1 := rfl
    rw [hlength] at hbound
    rw [if_neg (by omega)]
    simp only [List.length_append, hlength]
    omega

/-! ### Strings -/

private theorem bodyReach_pos (c : Char) (rest : List Char) : 0 < bodyReach (c :: rest) := by
  generalize htext : c :: rest = text
  fun_cases bodyReach text
  · cases htext
  all_goals omega

/-- A unit of a string's body is a plain character or an escape, but no escape
of a line feed. -/
theorem matches_bodyUnit_iff {u : List Char} : bodyUnit.Matches u ↔
    (∃ c, u = [c] ∧ c ≠ '"' ∧ c ≠ '\\') ∨ ∃ c, u = ['\\', c] ∧ c ≠ '\n' := by
  rw [bodyUnit, matches_either_iff]
  refine or_congr (by simp) ⟨fun h => ?_, ?_⟩
  · obtain ⟨u₁, u₂, rfl, hbackslash, hone⟩ := matches_seq_iff.mp h
    cases matches_char_iff.mp hbackslash
    obtain ⟨c, rfl, hc⟩ := matches_one_iff.mp hone
    exact ⟨c, rfl, by simpa using hc⟩
  · rintro ⟨c, rfl, hc⟩
    exact .seq (u := ['\\']) (matches_char_iff.mpr rfl) (.one (by simpa using hc))

/-- A unit of a string's body is passed as a whole. -/
theorem bodyReach_unit {u : List Char} (hu : bodyUnit.Matches u) (rest : List Char) :
    bodyReach (u ++ rest) = u.length + bodyReach rest := by
  rcases matches_bodyUnit_iff.mp hu with ⟨c, rfl, hquote, hbackslash⟩ | ⟨c, rfl, hc⟩
  · rw [List.singleton_append, bodyReach, List.length_singleton]
    all_goals simp_all
  · rw [List.cons_append, List.singleton_append, bodyReach]
    · rfl
    · exact hc

theorem bodyReach_units {w : List Char} (hw : (many bodyUnit).Matches w) (rest : List Char) :
    bodyReach (w ++ rest) = w.length + bodyReach rest := by
  induction hw using Matches.many_induction with
  | stop => simp
  | more hu _ ih => rw [List.append_assoc, bodyReach_unit hu, ih, List.length_append, Nat.add_assoc]

private theorem matches_stringRest_cons {u w : List Char} (hu : bodyUnit.Matches u)
    (hw : stringRest.Matches w) : stringRest.Matches (u ++ w) := by
  obtain ⟨body, last, rfl, hbody, hlast⟩ := matches_seq_iff.mp hw
  rw [← List.append_assoc]
  exact .seq (.more hu hbody) hlast

private theorem matches_stringRest_last {c : Char} (hc : c ≠ '\n') : stringRest.Matches [c] :=
  .seq (u := []) .stop (.left (.one (by simpa using hc)))

/-- What is behind a quote is taken as far as the body of a string goes. -/
theorem matches_take_bodyReach (text : List Char) :
    stringRest.Matches (text.take (bodyReach text)) := by
  fun_induction bodyReach text with
  | case1 => exact .seq (u := []) .stop (.right .empty)
  | case2 => exact matches_stringRest_last (by decide)
  | case3 => exact matches_stringRest_last (by decide)
  | case4 => exact matches_stringRest_last (by decide)
  | case5 c rest hne ih =>
      have hunit : bodyUnit.Matches ['\\', c] := matches_bodyUnit_iff.mpr (.inr ⟨c, rfl, hne⟩)
      rw [Nat.add_comm, List.take_succ_cons, List.take_succ_cons]
      exact matches_stringRest_cons hunit ih
  | case6 c rest hquote hend hline hescape ih =>
      have hbackslash : c ≠ '\\' := by
        cases rest with
        | nil => exact fun h => hend h rfl
        | cons d more => exact fun h => hescape d more h rfl
      have hunit : bodyUnit.Matches [c] :=
        matches_bodyUnit_iff.mpr (.inl ⟨c, rfl, hquote, hbackslash⟩)
      rw [Nat.add_comm, List.take_succ_cons]
      exact matches_stringRest_cons hunit ih

theorem measures_stringRest (text : List Char) :
    Measures stringRest (bodyReach text) text where
  matched _ := matches_take_bodyReach text
  longest := by
    rintro w rest rfl hw
    obtain ⟨body, last, rfl, hbody, hlast⟩ := matches_seq_iff.mp hw
    rw [List.append_assoc, bodyReach_units hbody, List.length_append]
    rcases matches_optional_iff.mp hlast with hone | rfl
    · obtain ⟨c, rfl, -⟩ := matches_one_iff.mp hone
      have hpos := bodyReach_pos c rest
      simp only [List.cons_append, List.nil_append, List.length_cons, List.length_nil]
      omega
    · simp

/-- A string reaches to its closing quote, or to what stands in the place of one. -/
theorem measures_string (text : List Char) :
    Measures (Pattern.regex .string) (stringReach text) text := by
  unfold stringReach
  split
  · rename_i rest
    refine ⟨fun _ => ?_, fun w tail htext hw => ?_⟩
    · rw [Nat.add_comm, List.take_succ_cons]
      exact .seq (u := ['"']) (matches_char_iff.mpr rfl) (matches_take_bodyReach rest)
    · obtain ⟨u, v, rfl, hu, hv⟩ := matches_seq_iff.mp hw
      cases matches_char_iff.mp hu
      simp only [List.cons_append, List.nil_append, List.cons.injEq, true_and] at htext
      have hbound := (measures_stringRest rest).longest v tail htext hv
      simp only [List.cons_append, List.nil_append, List.length_cons]
      omega
  · rename_i hquote
    refine ⟨fun hpos => absurd hpos (Nat.lt_irrefl 0), fun w tail htext hw => ?_⟩
    obtain ⟨u, v, rfl, hu, hv⟩ := matches_seq_iff.mp hw
    cases matches_char_iff.mp hu
    exact absurd htext (hquote (v ++ tail))

/-! ## Patterns -/

/-- A pattern reaches as far as its longest match. -/
theorem Pattern.measures_reach (p : Pattern) (text : List Char) :
    Measures p.regex (p.reach text) text := by
  cases p with
  | separators => exact measures_plus_one isSeparator text
  | comment => exact measures_comment text
  | leftParen => exact measures_character '(' text
  | rightParen => exact measures_character ')' text
  | leftBracket => exact measures_character '[' text
  | rightBracket => exact measures_character ']' text
  | boolean b => exact measures_word (booleanWord b) text
  | integer => exact measures_integer text
  | float => exact measures_float text
  | symbol => exact measures_symbol text
  | string => exact measures_string text

end LazyLisp.Token
