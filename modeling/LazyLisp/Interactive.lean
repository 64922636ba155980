import LazyLisp.Brackets.Balance
import LazyLisp.CommandLine
import LazyLisp.Text.Blank

/-!
# The interactive session

A session reads lines and runs each as a program, all in one global scope.
A line whose brackets are still open is continued by the next one, with
the line end between them; after a bracket that nothing can match the text
so far is kept too, without the line end. The session ends at `exit`, at a
line that is no text, or at the end of its input. It remembers the lines it
accepted for the next session.

How a line that is typed is joined to the text that is kept is up to a line
reader, which may let its user edit what stands there. The session judges
the text that the reader gives.

What the session writes is collected in its store, together with what the
programs print; what it complains about is kept apart.
-/

namespace LazyLisp.Interactive

/-- A session between two lines of input. -/
structure Session where
  scope : Scope
  store : Store
  /-- The lines read so far of a text that is not complete. -/
  pending : String
  /-- The texts that the session accepted, the latest first. -/
  accepted : List String
  /-- The lines written to standard error. -/
  complaints : List String
  ended : Bool

/-- The lines that greet the user. -/
def greeting (hasHistory : Bool) : List String :=
  ["glipso REPL v0.1.0", "Type 'exit' or press Ctrl-D to quit."]
    ++ (if hasHistory then [] else ["No previous history."])

/-- A new session; `hasHistory` says whether an earlier one left lines
behind. -/
def start (hasHistory : Bool) : Session :=
  let greeted := (greeting hasHistory).foldl Store.print .empty
  match Prelude.openGlobal CommandLine.fuel true greeted with
  | .done scope σ => ⟨scope, σ, "", [], [], false⟩
  | .failed _ σ => ⟨.global 0, σ, "", [], ["failed to load prelude"], true⟩
  | .exhausted => ⟨.global 0, greeted, "", [], [], true⟩

/-- Whether a text asks the session to end: the word itself, in letters of
either case. -/
def isExit (text : List Char) : Bool := text.map Char.toLower == ['e', 'x', 'i', 't']

/-- Puts an accepted text into the memory of the session. An empty one, or
one that repeats the latest, is left out. -/
def remember (text : String) (accepted : List String) : List String :=
  if text.isEmpty ∨ accepted.head? = some text then accepted else text :: accepted

/-- Adds lines to the complaints. -/
def complain (s : Session) (lines : List String) : Session :=
  { s with complaints := s.complaints ++ lines }

/-- Runs a program in the session and writes its value, or a report. -/
def runText (s : Session) (source : String) : Session :=
  match Program.run CommandLine.fuel source s.scope s.store with
  | .done v σ => { s with store := σ.print v.text }
  | .failed e σ =>
      let diagnostic := Diagnostic.ofError source.utf8ByteSize e
      complain { s with store := σ }
        (Diagnostic.report "repl" source.toList diagnostic).lines
  | .exhausted => { s with ended := true }

/-- Acts on a complete text. -/
def submit (s : Session) (text : String) : Session :=
  let s := { s with pending := "", accepted := remember text s.accepted }
  let trimmed := Text.trim text.toList
  if trimmed.isEmpty then s
  else if isExit trimmed then { s with ended := true }
  else runText s (String.ofList trimmed)

/-- A text to be judged, and the line end that was dropped from it. -/
structure Line where
  text : String
  ending : String

/-- What joins a line that is typed, with its line end if it has one, to the
text that is kept. -/
structure LineReader where
  read (kept typed : String) : Line

/-- Cuts off the line end that a text may have. -/
def chomp (text : String) : Line :=
  match text.toList.reverse with
  | '\n' :: '\r' :: rest => ⟨String.ofList rest.reverse, "\r\n"⟩
  | '\n' :: rest => ⟨String.ofList rest.reverse, "\n"⟩
  | _ => ⟨text, ""⟩

/-- The reader that takes all characters as they are and knows no editing. -/
def LineReader.plain : LineReader where
  read kept typed := chomp (kept ++ typed)

/-- Reads one line of input, with its line end if it has one. -/
def feed (reader : LineReader) (s : Session) (line : ByteArray) : Session :=
  if s.ended then s
  else
    match String.fromUTF8? line with
    | none =>
        complain { s with ended := true }
          ["Readline Error: " ++ CommandLine.ReadFault.notText.message]
    | some typed =>
        let whole := reader.read s.pending typed
        let verdict := Brackets.verdict whole.text.toList
        match verdict with
        | .valid => submit s whole.text
        | .incomplete => { s with pending := whole.text ++ whole.ending }
        | .invalid _ _ => complain { s with pending := whole.text } verdict.message?.toList

/-- Ends a session at the end of its input. -/
def finish (s : Session) : Session :=
  if s.ended then s else { s with ended := true, store := (s.store.print "").print "Exiting." }

/-- Cuts input into lines, each with its line feed; a last line may lack
one. `current` holds the line being read, the latest byte first. -/
def splitLines (current : List UInt8) : List UInt8 → List (List UInt8)
  | [] => if current.isEmpty then [] else [current.reverse]
  | b :: rest =>
      if b = 10 then (b :: current).reverse :: splitLines [] rest
      else splitLines (b :: current) rest

/-- A whole session on its input. -/
def session (reader : LineReader) (hasHistory : Bool) (input : ByteArray) : Session :=
  finish ((splitLines [] input.toList).foldl (fun s line => feed reader s ⟨line.toArray⟩)
    (start hasHistory))

/-- Whether there are lines for the next session, from before or from this
one. -/
def leavesHistory (hasHistory : Bool) (s : Session) : Bool := hasHistory || !s.accepted.isEmpty

end LazyLisp.Interactive
