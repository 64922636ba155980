import LazyLisp.Number
import LazyLisp.Token.Basic

/-!
# The values of literals

From the spelling of a literal to its value: integers have to fit in 64
bits, floats are the double nearest to the decimal written, and strings
have their escapes resolved.

## Main results

* `unescape_escape` — escaping a text and resolving the escapes gives the
  text back.
-/

namespace LazyLisp.Token

/-! ## Numbers -/

/-- Splits a minus sign from a spelling. -/
def unsigned : List Char → Bool × List Char
  | '-' :: rest => (true, rest)
  | cs => (false, cs)

/-- The natural number that the digits spell. -/
def naturalValue (digits : List Char) : Nat := Nat.ofDigitChars 10 digits 0

/-- The value of `-?[0-9]+`. -/
def integerValue (cs : List Char) : Int :=
  let (negative, digits) := unsigned cs
  if negative then -(naturalValue digits : Int) else naturalValue digits

/-- The double nearest to the value of `-?[0-9]+\.[0-9]+`: all digits count
as one number, the ones after the point as so many decimal places. -/
def floatValue (cs : List Char) : Float :=
  let (negative, rest) := unsigned cs
  let whole := rest.takeWhile (· ≠ '.')
  let fraction := (rest.dropWhile (· ≠ '.')).drop 1
  let x := Float.ofScientific (naturalValue (whole ++ fraction)) true fraction.length
  if negative then -x else x

/-! ## Strings -/

/-- What a backslash and a character stand for, if they are an escape. -/
def escaped : Char → Option Char
  | 'n' => some '\n'
  | 'r' => some '\r'
  | 't' => some '\t'
  | '\\' => some '\\'
  | '"' => some '"'
  | _ => none

/-- Resolves the escapes in the body of a string, up to the first that is
none. -/
def unescape : List Char → Except Fault (List Char)
  | [] => .ok []
  | ['\\'] => .error .unterminatedString
  | '\\' :: c :: rest =>
      match escaped c with
      | some d => (unescape rest).map (d :: ·)
      | none => .error (.unknownEscape c)
  | c :: rest => (unescape rest).map (c :: ·)

/-- Writes a backslash before every quote and every backslash. -/
def escape : List Char → List Char
  | [] => []
  | c :: rest => if c = '"' ∨ c = '\\' then '\\' :: c :: escape rest else c :: escape rest

/-- Every text can be written as the body of a string. -/
theorem unescape_escape (cs : List Char) : unescape (escape cs) = .ok cs := by
  induction cs with
  | nil => rfl
  | cons c rest ih =>
      unfold escape
      split
      · rename_i special
        rcases special with rfl | rfl <;> simp [unescape, escaped, ih, Except.map]
      · rename_i plain
        rw [unescape]
        · simp [ih, Except.map]
        all_goals simp_all

/-- The value of a string, from its spelling with both quotes. A spelling
that is a lone quote or does not end in one was never closed. -/
def stringValue (cs : List Char) : Except Fault String :=
  if cs.length = 1 ∨ cs.getLast? ≠ some '"' then .error .unterminatedString
  else (unescape ((cs.drop 1).dropLast)).map String.ofList

end LazyLisp.Token
