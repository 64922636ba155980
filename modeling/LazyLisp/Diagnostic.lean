import LazyLisp.Program
import LazyLisp.Text.Lines

/-!
# Diagnostics

When a program has no value, its user is shown a header, the place in the
source, and a label for that stretch of it. The place is given by line and
column. It is found by counting the span's offsets as characters from the
beginning of the source.

## Main results

* `reportSpan_of_none` — without a call the whole source is pointed at.
-/

namespace LazyLisp

/-- What is to be said about an error, and the stretch of source that it
concerns. -/
structure Diagnostic where
  header : String
  label : String
  span : Span

/-- A diagnostic as shown: the place and the label are missing when the
stretch lies outside the source. -/
structure Report where
  header : String
  location : Option String
  label : Option String

namespace Diagnostic

/-- The stretch of source that a failure concerns: its call, if that has a
place in the source, else all of it. Calls that no source spells have no
place. -/
def reportSpan (sourceLength : Nat) (f : Failure) : Span :=
  match f.call with
  | some c =>
      if c.span.start < c.span.stop ∧ c.span.stop ≤ sourceLength then c.span
      else ⟨0, sourceLength⟩
  | none => ⟨0, sourceLength⟩

theorem reportSpan_of_none {f : Failure} (h : f.call = none) (sourceLength : Nat) :
    reportSpan sourceLength f = ⟨0, sourceLength⟩ := by
  simp [reportSpan, h]

/-- The diagnostic of a failed evaluation. -/
def ofFailure (sourceLength : Nat) (f : Failure) : Diagnostic where
  header := f.fault.message
  label :=
    match f.call with
    | some c => "failed in " ++ c.text
    | none => "while evaluating this expression"
  span := reportSpan sourceLength f

/-- The diagnostic of a text that cannot be read. -/
def ofReaderError (sourceLength : Nat) (e : Reader.Error) : Diagnostic where
  header :=
    match e with
    | .unexpectedToken found _ => "Unexpected token: " ++ found.kind.text
    | .unexpectedEnd _ => "Unexpected end of input"
    | .lexical _ => "Lexer error"
  label :=
    match e with
    | .unexpectedToken _ expected => "Expected " ++ expected.text
    | .unexpectedEnd expected => "Expected " ++ expected.text
    | .lexical error => error.fault.message
  span := e.span sourceLength

/-- The diagnostic of a program without a value. -/
def ofError (sourceLength : Nat) : Program.Error → Diagnostic
  | .unreadable e => ofReaderError sourceLength e
  | .failed f => ofFailure sourceLength f

/-- Whether a source of so many characters reaches as far as a span. -/
def isWithin (characters : Nat) (s : Span) : Bool :=
  decide (s.start ≤ characters) && (decide (s.stop ≤ s.start) || decide (s.stop - 1 ≤ characters))

/-- Whether the label can be drawn. It cannot where the span ends past its
only line, or where its last line is the end of the source. -/
def isDrawn (source : List Char) (s : Span) : Bool :=
  let first := Text.locate source s.start
  let last := Text.locate source (max s.start (s.stop - 1))
  if first.number = last.number then decide (s.stop ≤ first.start + first.length)
  else decide (s.stop - 1 ≠ source.length)

/-- The place of a source as a user reads it, with lines and columns counted
from one. -/
def placeText (name : String) (source : List Char) (place : Nat) : String :=
  let line := Text.locate source place
  name ++ ":" ++ (line.number + 1).repr ++ ":" ++ (place - line.start + 1).repr

/-- Shows a diagnostic for a source of this name. -/
def report (name : String) (source : List Char) (d : Diagnostic) : Report where
  header := d.header
  location :=
    if isWithin source.length d.span then some (placeText name source d.span.start) else none
  label := if isWithin source.length d.span && isDrawn source d.span then some d.label else none

end Diagnostic

/-- The lines of a report as written to a terminal. -/
def Report.lines (r : Report) : List String :=
  ("Error: " ++ r.header) ::
    ((r.location.map ("  at " ++ ·)).toList ++ (r.label.map ("  " ++ ·)).toList)

end LazyLisp
