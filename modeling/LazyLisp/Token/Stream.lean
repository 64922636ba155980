import LazyLisp.Text.Bytes
import LazyLisp.Token.Literal
import LazyLisp.Token.Pattern

/-!
# From text to tokens

A text is cut into its longest matches from left to right
(`Token.Pattern`); separators and comments are dropped, and the first
piece that is no token ends the reading with an error.

## Main results

* `scan_invalid` — a character that begins no piece is an error of its
  own.
-/

namespace LazyLisp.Token

/-- The token that a piece of text spells; separators and comments spell
none. -/
def ofPiece (p : Pattern) (piece : List Char) : Except Fault (Option Kind) :=
  match p with
  | .separators | .comment => .ok none
  | .leftParen => .ok (some .leftParen)
  | .rightParen => .ok (some .rightParen)
  | .leftBracket => .ok (some .leftBracket)
  | .rightBracket => .ok (some .rightBracket)
  | .boolean b => .ok (some (.boolean b))
  | .integer =>
      match Number.ofInt? (integerValue piece) with
      | some n => .ok (some (.integer n))
      | none => .error (.invalidNumber (String.ofList piece))
  | .float => .ok (some (.float (floatValue piece)))
  | .symbol => .ok (some (.symbol (String.ofList piece)))
  | .string => (stringValue piece).map fun s => some (.string s)

/-- Reads the tokens of a text that begins at a byte offset. -/
def scan (offset : Nat) (cs : List Char) : Except Error (List Token) :=
  match cs with
  | [] => .ok []
  | c :: rest =>
      match longest (c :: rest) with
      | (p, n) =>
          if n = 0 then .error ⟨.invalidToken, ⟨offset, offset + c.utf8Size⟩⟩
          else
            let piece := (c :: rest).take n
            let stop := offset + Text.byteLength piece
            match ofPiece p piece with
            | .error fault => .error ⟨fault, ⟨offset, stop⟩⟩
            | .ok none => scan stop ((c :: rest).drop n)
            | .ok (some kind) => (scan stop ((c :: rest).drop n)).map (⟨kind, ⟨offset, stop⟩⟩ :: ·)
termination_by cs.length
decreasing_by all_goals (simp only [List.length_drop, List.length_cons]; omega)

/-- The tokens of a text, or its first lexical error. -/
def tokenize (source : String) : Except Error (List Token) := scan 0 source.toList

@[simp] theorem scan_nil (offset : Nat) : scan offset [] = .ok [] := by
  rw [scan]

/-- A character that begins no piece is an error of its own. -/
theorem scan_invalid {c : Char} {rest : List Char} (h : (longest (c :: rest)).2 = 0)
    (offset : Nat) :
    scan offset (c :: rest) = .error ⟨.invalidToken, ⟨offset, offset + c.utf8Size⟩⟩ := by
  rw [scan]
  simp [h]

end LazyLisp.Token
