/-!
# Blank characters

The characters that Unicode calls white space, and the removal of those
at both ends of a line. The interactive session trims every line by this
class; the reader of programs has a narrower one of its own
(`Token.Pattern`).

## Main results

* `isBlank_of_isWhitespace` — every ASCII white space character is blank.
-/

namespace LazyLisp.Text

/-- The code points with the Unicode property `White_Space`, as ranges
with both ends included. -/
def blankRanges : List (Nat × Nat) :=
  [(0x09, 0x0D), (0x20, 0x20), (0x85, 0x85), (0xA0, 0xA0), (0x1680, 0x1680),
   (0x2000, 0x200A), (0x2028, 0x2029), (0x202F, 0x202F), (0x205F, 0x205F),
   (0x3000, 0x3000)]

/-- Whether Unicode counts the character as white space. -/
def isBlank (c : Char) : Bool :=
  blankRanges.any fun range => range.1 ≤ c.toNat && c.toNat ≤ range.2

/-- The table extends the narrower class of white space characters. -/
theorem isBlank_of_isWhitespace {c : Char} (h : c.isWhitespace = true) : isBlank c = true := by
  simp only [Char.isWhitespace, Bool.or_eq_true, decide_eq_true_eq] at h
  rcases h with ((h | h) | h) | h <;> subst h <;> decide

/-- The characters without the blank ones at both ends. -/
def trim (cs : List Char) : List Char :=
  ((cs.dropWhile isBlank).reverse.dropWhile isBlank).reverse

end LazyLisp.Text
