/-!
# Balance of brackets

Before a line is run, the interactive session asks whether its brackets
are balanced: a text can be complete, wrong for good, or still open. Only
brackets outside strings count; what is a string is told by a scan of its
own, which knows quotes and backslashes and nothing else of the language.

## Main results

* `feed_outside` — outside a string only a quote begins one.
-/

namespace LazyLisp.Brackets

/-! ## Strings -/

/-- Where a scan stands with respect to strings. -/
inductive Quoting where
  | outside
  | inside
  /-- Inside, right after a backslash. -/
  | escaped
deriving DecidableEq, Inhabited

/-- Passes one character: whether it belongs to a string, quotes included,
and where the scan stands after it. -/
def Quoting.feed (q : Quoting) (c : Char) : Bool × Quoting :=
  match q with
  | .outside => if c = '"' then (true, .inside) else (false, .outside)
  | .inside =>
      (true, if c = '\\' then .escaped else if c = '"' then .outside else .inside)
  | .escaped => (true, .inside)

/-- Outside a string only a quote changes anything. -/
theorem Quoting.feed_outside {c : Char} (h : c ≠ '"') :
    Quoting.outside.feed c = (false, .outside) := by
  simp [feed, h]

/-! ## Brackets -/

/-- Whether a character is an opening bracket. -/
def isOpening (c : Char) : Bool := c == '(' || c == '['

/-- Whether a character is a closing bracket. -/
def isClosing (c : Char) : Bool := c == ')' || c == ']'

/-- Whether two brackets belong together. -/
def isMatch (opening closing : Char) : Bool :=
  (opening == '(' && closing == ')') || (opening == '[' && closing == ']')

/-- What the brackets of a text come to. -/
inductive Verdict where
  /-- All brackets and strings are closed. -/
  | valid
  /-- A closing bracket has no opening one; it stands at this character,
  counted from zero. -/
  | invalid (bracket : Char) (position : Nat)
  /-- A bracket or a string is still open. -/
  | incomplete
deriving DecidableEq

/-- What a user is told about an invalid text. -/
def Verdict.message? : Verdict → Option String
  | .invalid bracket position =>
      some ("  - Unmatched '" ++ String.singleton bracket ++ "' at position " ++ position.repr)
  | _ => none

/-- The verdict on the rest of a text, given the open brackets, innermost
first, and the place of the next character. -/
def verdictFrom (q : Quoting) (stack : List Char) (position : Nat) : List Char → Verdict
  | [] => if q = .outside ∧ stack = [] then .valid else .incomplete
  | c :: rest =>
      match q.feed c with
      | (true, after) => verdictFrom after stack (position + 1) rest
      | (false, after) =>
          if isOpening c then verdictFrom after (c :: stack) (position + 1) rest
          else if isClosing c then
            match stack with
            | opening :: around =>
                if isMatch opening c then verdictFrom after around (position + 1) rest
                else .invalid c position
            | [] => .invalid c position
          else verdictFrom after stack (position + 1) rest

/-- The verdict on a text. -/
def verdict (cs : List Char) : Verdict := verdictFrom .outside [] 0 cs

end LazyLisp.Brackets
