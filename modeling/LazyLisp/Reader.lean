import LazyLisp.Token.Stream
import LazyLisp.Value.Basic

/-!
# The reader: from tokens to forms

A form is a literal, a symbol, a call `( form form* )` or a vector
`[ form* ]`; there is no empty call. The reader walks the tokens once,
with the brackets that are open so far on a stack, so the place of an
error is simply the first token that the innermost open bracket cannot
take, or the end of the tokens while one is open.

## Main results

* `next_shorter` — a form that was read took at least one token.
* `forms_nil` — no tokens hold no form.
-/

namespace LazyLisp

namespace Reader

/-- What the reader was waiting for where it failed. -/
inductive Expected where
  | expression
  | callee
  | closingParen
  | closingBracket
  | endOfInput
deriving DecidableEq

/-- The wording of an expectation. -/
def Expected.text : Expected → String
  | .expression => "an expression"
  | .callee => "a callee"
  | .closingParen => "')'"
  | .closingBracket => "']'"
  | .endOfInput => "end of input"

/-- Why a text holds no form, or not the one form it should. -/
inductive Error where
  /-- A token that cannot stand where it was found. -/
  | unexpectedToken (found : Token) (expected : Expected)
  /-- The text ended too early. -/
  | unexpectedEnd (expected : Expected)
  /-- The text is no row of tokens. -/
  | lexical (error : Token.Error)

namespace Error

/-- The wording of an error. -/
def message : Error → String
  | .unexpectedToken found expected =>
      "unexpected token '" ++ found.kind.text ++ "' at " ++ found.span.text ++ ", expected "
        ++ expected.text
  | .unexpectedEnd expected => "unexpected end of input, expected " ++ expected.text
  | .lexical error => error.fault.message

/-- The place of an error in a source of so many bytes; what is missing is
missing past the last byte. -/
def span (sourceLength : Nat) : Error → Span
  | .unexpectedToken found _ => found.span
  | .unexpectedEnd _ => ⟨sourceLength, sourceLength⟩
  | .lexical error => error.span

end Error

/-! ## Open brackets -/

/-- A bracket that is still open, with what was read inside it so far, the
latest form first. -/
inductive Open where
  /-- A parenthesis whose callee has not been read. -/
  | callee (start : Span)
  /-- A call that awaits more arguments or its closing parenthesis. -/
  | args (start : Span) (callee : Value) (read : List Value)
  /-- A vector that awaits more items or its closing bracket. -/
  | items (read : List Value)

namespace Open

/-- Puts a form that was read into the bracket around it. -/
def push (form : Value) : Open → Open
  | .callee start => .args start form []
  | .args start head read => .args start head (form :: read)
  | .items read => .items (form :: read)

/-- What is missing if the text ends while this bracket is innermost. -/
def missing : Open → Expected
  | .callee _ => .expression
  | .args _ _ _ => .closingParen
  | .items _ => .closingBracket

end Open

/-- The form that a token is on its own; brackets are none. -/
def atom? : Token.Kind → Option Value
  | .boolean b => some (.boolean b)
  | .integer n => some (.integer n)
  | .float x => some (.float x)
  | .symbol name => some (.symbol name)
  | .string s => some (.string s)
  | .leftParen | .rightParen | .leftBracket | .rightBracket => none

/-- What one token does under a stack of open brackets. -/
inductive Move where
  /-- The token opens a bracket. -/
  | enter (bracket : Open)
  /-- The token completes a form; the brackets around it stay open. -/
  | complete (form : Value) (around : List Open)
  /-- The token cannot stand here. -/
  | refuse (expected : Expected)

/-- What a token does under the open brackets. A closing bracket completes
the call or vector that it belongs to. -/
def move (stack : List Open) (t : Token) : Move :=
  match t.kind, stack with
  | .leftParen, _ => .enter (.callee t.span)
  | .leftBracket, _ => .enter (.items [])
  | .rightParen, .args start callee read :: around =>
      .complete (.call callee read.reverse (start.merge t.span)) around
  | .rightParen, .callee _ :: _ => .refuse .callee
  | .rightBracket, .items read :: around => .complete (.vector read.reverse) around
  | kind, around =>
      match atom? kind with
      | some form => .complete form around
      | none => .refuse .expression

/-- Reads on under the open brackets until one whole form is complete;
answers it and the tokens after it. -/
def readUnder : List Open → List Token → Except Error (Value × List Token)
  | [], [] => .error (.unexpectedEnd .expression)
  | innermost :: _, [] => .error (.unexpectedEnd innermost.missing)
  | stack, t :: rest =>
      match move stack t with
      | .enter bracket => readUnder (bracket :: stack) rest
      | .complete form [] => .ok (form, rest)
      | .complete form (innermost :: around) => readUnder (innermost.push form :: around) rest
      | .refuse expected => .error (.unexpectedToken t expected)

/-- Reads the first form of the tokens. -/
def next (tokens : List Token) : Except Error (Value × List Token) := readUnder [] tokens

private theorem readUnder_shorter {stack : List Open} {tokens rest : List Token} {form : Value}
    (h : readUnder stack tokens = .ok (form, rest)) : rest.length < tokens.length := by
  fun_induction readUnder stack tokens with
  | case1 | case2 | case6 => cases h
  | case3 stack t rest' bracket _ ih =>
      have := ih h
      simp only [List.length_cons]
      omega
  | case4 stack t rest' form' _ =>
      cases h
      simp
  | case5 stack t rest' form' innermost around _ ih =>
      have := ih h
      simp only [List.length_cons]
      omega

/-- A form takes at least one token, so that reading form after form
ends. -/
theorem next_shorter {tokens rest : List Token} {form : Value}
    (h : next tokens = .ok (form, rest)) : rest.length < tokens.length :=
  readUnder_shorter h

/-- Reads form after form until one cannot be read: the forms, and the
error that ended the row. At the end of the tokens that error is the lack
of an expression. -/
def forms (tokens : List Token) : List Value × Error :=
  match h : next tokens with
  | .error error => ([], error)
  | .ok (form, rest) =>
      have : rest.length < tokens.length := next_shorter h
      let more := forms rest
      (form :: more.1, more.2)
termination_by tokens.length

@[simp] theorem forms_nil : forms [] = ([], .unexpectedEnd .expression) := by
  rw [forms]
  rfl

/-- Reads tokens that hold exactly one form. -/
def readAll (tokens : List Token) : Except Error Value :=
  match next tokens with
  | .error error => .error error
  | .ok (form, []) => .ok form
  | .ok (_, t :: _) => .error (.unexpectedToken t .endOfInput)

/-- Reads a text that holds exactly one form. -/
def read (source : String) : Except Error Value :=
  match Token.tokenize source with
  | .error error => .error (.lexical error)
  | .ok tokens => readAll tokens

end Reader

end LazyLisp
