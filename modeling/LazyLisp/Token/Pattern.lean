/-!
# The patterns of tokens

Every piece of a program's text matches one of a dozen patterns. At each
place the longest match counts, and of equally long ones the pattern that
comes first in `Pattern.all`; the numbers and the booleans stand before
the symbols there, so `-5` is an integer and `-5x` a symbol.

`reach` gives the length of the longest match of one pattern at the
beginning of a text, zero when there is none: no pattern matches the empty
text.

## Main results

* `reach_le_length` — a match never extends past the text.
* `longest_le_length` — nor does the chosen one.
-/

namespace LazyLisp.Token

/-! ## Classes of characters -/

/-- The characters that separate tokens. -/
def isSeparator (c : Char) : Bool :=
  c == ' ' || c == '\t' || c == '\n' || c == '\r'

/-- The characters that end a comment. -/
def endsComment (c : Char) : Bool := c == '\n' || c == '\r'

/-- The decimal digits. -/
def isDigit (c : Char) : Bool := '0' ≤ c && c ≤ '9'

/-- The signs that may stand in a symbol beside the letters. -/
def symbolSigns : List Char :=
  ['!', '$', '%', '&', '*', '/', ':', '<', '=', '>', '?', '~', '_', '^', '+', '-']

/-- The characters that a symbol may begin with: ASCII letters and signs. -/
def startsSymbol (c : Char) : Bool :=
  ('a' ≤ c && c ≤ 'z') || ('A' ≤ c && c ≤ 'Z') || symbolSigns.contains c

/-- The characters that may follow in a symbol. -/
def continuesSymbol (c : Char) : Bool := startsSymbol c || isDigit c || c == '.'

/-! ## Lengths of matches -/

/-- How many characters at the beginning of a text are in a class. -/
def run (p : Char → Bool) (cs : List Char) : Nat := (cs.takeWhile p).length

theorem run_le_length (p : Char → Bool) (cs : List Char) : run p cs ≤ cs.length :=
  (List.takeWhile_prefix p).length_le

/-- The length of `-?[0-9]+`. -/
def integerReach : List Char → Nat
  | '-' :: rest => if run isDigit rest = 0 then 0 else 1 + run isDigit rest
  | cs => run isDigit cs

/-- The length of a point and the digits after it. -/
def fractionReach : List Char → Nat
  | '.' :: rest => if run isDigit rest = 0 then 0 else 1 + run isDigit rest
  | _ => 0

/-- The length of `-?[0-9]+\.[0-9]+`. -/
def floatReach (cs : List Char) : Nat :=
  if integerReach cs = 0 then 0
  else if fractionReach (cs.drop (integerReach cs)) = 0 then 0
  else integerReach cs + fractionReach (cs.drop (integerReach cs))

/-- The length of a symbol. -/
def symbolReach : List Char → Nat
  | [] => 0
  | c :: rest => if startsSymbol c then 1 + run continuesSymbol rest else 0

/-- The length of a comment, which a semicolon opens. -/
def commentReach : List Char → Nat
  | ';' :: rest => 1 + run (fun c => !endsComment c) rest
  | _ => 0

/-- How far a string extends after its opening quote: over plain characters
and over escapes, which are a backslash and any character but a line feed,
and then over one more character if that is no line feed. The last one is
the closing quote, or the backslash before a line feed. -/
def bodyReach : List Char → Nat
  | [] => 0
  | '"' :: _ => 1
  | ['\\'] => 1
  | '\\' :: '\n' :: _ => 1
  | '\\' :: _ :: rest => 2 + bodyReach rest
  | _ :: rest => 1 + bodyReach rest

/-- The length of a string, closed or not. -/
def stringReach : List Char → Nat
  | '"' :: rest => 1 + bodyReach rest
  | _ => 0

/-- The length of one given character. -/
def characterReach (wanted : Char) : List Char → Nat
  | c :: _ => if c = wanted then 1 else 0
  | [] => 0

/-- The length of one given word. -/
def wordReach (word : List Char) (cs : List Char) : Nat :=
  if word.isPrefixOf cs then word.length else 0

/-! ## The table -/

/-- What a piece of a program's text can be. -/
inductive Pattern where
  | separators
  | comment
  | leftParen
  | rightParen
  | leftBracket
  | rightBracket
  | boolean (b : Bool)
  | integer
  | float
  | symbol
  | string
deriving DecidableEq, Inhabited

namespace Pattern

/-- All patterns; of equally long matches the first in this list counts. -/
def all : List Pattern :=
  [.separators, .comment, .leftParen, .rightParen, .leftBracket, .rightBracket,
   .boolean true, .boolean false, .integer, .float, .symbol, .string]

/-- The spelling of a boolean. -/
def booleanWord (b : Bool) : List Char :=
  if b then ['t', 'r', 'u', 'e'] else ['f', 'a', 'l', 's', 'e']

/-- The length of the longest match at the beginning of a text. -/
def reach : Pattern → List Char → Nat
  | .separators => run isSeparator
  | .comment => commentReach
  | .leftParen => characterReach '('
  | .rightParen => characterReach ')'
  | .leftBracket => characterReach '['
  | .rightBracket => characterReach ']'
  | .boolean b => wordReach (booleanWord b)
  | .integer => integerReach
  | .float => floatReach
  | .symbol => symbolReach
  | .string => stringReach

end Pattern

/-- The better of a match found so far and that of one more pattern. -/
def better (cs : List Char) (best : Pattern × Nat) (p : Pattern) : Pattern × Nat :=
  if best.2 < p.reach cs then (p, p.reach cs) else best

/-- The first of the longest matches and its length; length zero when no
pattern matches. -/
def longest (cs : List Char) : Pattern × Nat :=
  Pattern.all.foldl (better cs) (.separators, 0)

/-! ## Matches stay within the text -/

theorem integerReach_le_length (cs : List Char) : integerReach cs ≤ cs.length := by
  unfold integerReach
  split
  · rename_i rest
    have := run_le_length isDigit rest
    split <;> simp only [List.length_cons] <;> omega
  · exact run_le_length _ _

private theorem fractionReach_le_length (cs : List Char) : fractionReach cs ≤ cs.length := by
  unfold fractionReach
  split
  · rename_i rest
    have := run_le_length isDigit rest
    split <;> simp only [List.length_cons] <;> omega
  · exact Nat.zero_le _

private theorem floatReach_le_length (cs : List Char) : floatReach cs ≤ cs.length := by
  have whole := integerReach_le_length cs
  have fraction := fractionReach_le_length (cs.drop (integerReach cs))
  rw [List.length_drop] at fraction
  unfold floatReach
  split
  · exact Nat.zero_le _
  · split <;> omega

private theorem bodyReach_le_length (cs : List Char) : bodyReach cs ≤ cs.length := by
  fun_induction bodyReach cs <;> simp only [List.length_cons, List.length_nil] <;> omega

theorem Pattern.reach_le_length (p : Pattern) (cs : List Char) : p.reach cs ≤ cs.length := by
  cases p with
  | separators => exact run_le_length _ _
  | comment =>
      simp only [Pattern.reach, commentReach]
      split
      · rename_i rest
        have := run_le_length (fun c => !endsComment c) rest
        simp only [List.length_cons]
        omega
      · exact Nat.zero_le _
  | leftParen | rightParen | leftBracket | rightBracket =>
      simp only [Pattern.reach, characterReach]
      split
      · split <;> simp
      · exact Nat.zero_le _
  | boolean b =>
      simp only [Pattern.reach, wordReach]
      split
      · rename_i found
        exact (List.isPrefixOf_iff_prefix.1 found).length_le
      · exact Nat.zero_le _
  | integer => exact integerReach_le_length cs
  | float => exact floatReach_le_length cs
  | symbol =>
      simp only [Pattern.reach, symbolReach]
      split
      · exact Nat.zero_le _
      · rename_i c rest
        have := run_le_length continuesSymbol rest
        split <;> simp only [List.length_cons] <;> omega
  | string =>
      simp only [Pattern.reach, stringReach]
      split
      · rename_i rest
        have := bodyReach_le_length rest
        simp only [List.length_cons]
        omega
      · exact Nat.zero_le _

private theorem foldl_better_le (cs : List Char) (ps : List Pattern) (best : Pattern × Nat)
    (h : best.2 ≤ cs.length) : (ps.foldl (better cs) best).2 ≤ cs.length := by
  induction ps generalizing best with
  | nil => exact h
  | cons p rest ih =>
      refine ih _ ?_
      unfold better
      split
      · exact p.reach_le_length cs
      · exact h

/-- The longest match does not go beyond the text. -/
theorem longest_le_length (cs : List Char) : (longest cs).2 ≤ cs.length :=
  foldl_better_le cs _ _ (Nat.zero_le _)

end LazyLisp.Token
