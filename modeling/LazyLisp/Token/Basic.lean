import LazyLisp.Decimal.FloatText
import LazyLisp.Span

/-!
# Tokens

The words of a program: brackets, literals and symbols, each with the
span of its spelling. Blank space and comments separate tokens and leave
none behind. The module also holds the ways in which a text can fail to
be a row of tokens.
-/

namespace LazyLisp

namespace Token

/-- What a token is, with the value of its literal. -/
inductive Kind where
  | leftParen
  | rightParen
  | leftBracket
  | rightBracket
  | boolean (b : Bool)
  | integer (n : Int64)
  | float (x : Float)
  | symbol (name : String)
  | string (s : String)
deriving Inhabited

/-- The text of a token in messages. A string stands between quotes again,
with its escapes resolved. -/
def Kind.text : Kind → String
  | .leftParen => "("
  | .rightParen => ")"
  | .leftBracket => "["
  | .rightBracket => "]"
  | .boolean b => if b then "true" else "false"
  | .integer n => n.toInt.repr
  | .float x => Decimal.FloatStyle.literal.text x
  | .symbol name => name
  | .string s => "\"" ++ s ++ "\""

/-- Why a text is no row of tokens. -/
inductive Fault where
  /-- A string has no closing quote. -/
  | unterminatedString
  /-- An integer literal is out of range. -/
  | invalidNumber (spelling : String)
  /-- A backslash in a string stands before a character that it does not
  escape. -/
  | unknownEscape (c : Char)
  /-- No token begins with this character. -/
  | invalidToken
deriving DecidableEq

/-- The wording of a fault. -/
def Fault.message : Fault → String
  | .unterminatedString => "unterminated string literal"
  | .invalidNumber spelling => "invalid number format: '" ++ spelling ++ "'"
  | .unknownEscape c => "unknown escape sequence: '\\" ++ String.singleton c ++ "'"
  | .invalidToken => "invalid token"

/-- A fault and the piece of text that has it. -/
structure Error where
  fault : Fault
  span : Span
deriving DecidableEq

end Token

/-- A word of a program and where it stands. -/
structure Token where
  kind : Token.Kind
  span : Span
deriving Inhabited

end LazyLisp
