/-!
# Lines of a text

A text is cut into lines at the line ends that Unicode knows, a carriage
return with a line feed counting as one. A line includes its end. The end
of the last line opens no further, empty one; the empty text is one empty
line.

## Main results

* `locate_start_le` — the line found for a place never begins after it.
-/

namespace LazyLisp.Text

/-- Whether a line ends after the character. -/
def endsLine (c : Char) : Bool :=
  c == '\n' || c == '\r' || c == '\x0b' || c == '\x0c' || c == '\u0085' || c == '\u2028'
    || c == '\u2029'

/-- The lengths of the lines, in characters; `seen` characters of the first
one are already passed. -/
def lineLengths (seen : Nat) : List Char → List Nat
  | [] => if seen = 0 then [] else [seen]
  | '\r' :: '\n' :: rest => (seen + 2) :: lineLengths 0 rest
  | c :: rest =>
      if endsLine c then (seen + 1) :: lineLengths 0 rest else lineLengths (seen + 1) rest

/-- The lengths of the lines of a text. -/
def lines (cs : List Char) : List Nat :=
  match lineLengths 0 cs with
  | [] => [0]
  | lengths => lengths

/-- A line: which one it is, counted from zero, where it starts, and how
long it is, in characters. -/
structure Line where
  number : Nat
  start : Nat
  length : Nat
deriving DecidableEq, Inhabited

/-- Looks for the line of a place among the lines from `number` on, of
which the first begins at `start`. A place past all lines is in the last. -/
def locateFrom (number start place : Nat) : List Nat → Line
  | [] => ⟨number, start, 0⟩
  | [length] => ⟨number, start, length⟩
  | length :: rest =>
      if place < start + length then ⟨number, start, length⟩
      else locateFrom (number + 1) (start + length) place rest

/-- The line of a place in a text: the last one that starts at it or
before. -/
def locate (cs : List Char) (place : Nat) : Line := locateFrom 0 0 place (lines cs)

private theorem locateFrom_start_le {start place : Nat} (h : start ≤ place) (number : Nat)
    (lengths : List Nat) : (locateFrom number start place lengths).start ≤ place := by
  fun_induction locateFrom number start place lengths with
  | case1 | case2 | case3 => exact h
  | case4 number start length rest _ later ih => exact ih (by omega)

/-- The line found for a place does not begin behind it. -/
theorem locate_start_le (cs : List Char) (place : Nat) : (locate cs place).start ≤ place :=
  locateFrom_start_le (Nat.zero_le _) _ _

end LazyLisp.Text
