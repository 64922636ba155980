import LazyLisp.Diagnostic
import LazyLisp.Prelude

/-!
# The command line

The interpreter takes at most one argument, the path of a program, and
without one reads its program from standard input. It prints what the
program prints and then the program's value; a diagnostic goes to standard
error. All of it is decided here from the arguments and the bytes that
were read; only the reading itself is left to the outside.
-/

namespace LazyLisp.CommandLine

/-- How many steps an evaluation may take: more than will ever be run. -/
def fuel : Nat := Nat.pow 10 18

/-- What the arguments ask for. -/
inductive Request where
  /-- To run the program on standard input. -/
  | standardInput
  /-- To run the program in a file. -/
  | file (path : String)
  /-- Something that the command does not do. -/
  | unknown
deriving DecidableEq

/-- The request of the arguments after the command's name. -/
def request : List String → Request
  | [] => .standardInput
  | [path] => .file path
  | _ => .unknown

/-- Why a program's text could not be read. -/
inductive ReadFault where
  /-- The system refused, for the reason that its code stands for. -/
  | system (code : Nat)
  /-- The bytes are no UTF-8 text. -/
  | notText
deriving DecidableEq

/-- The system's reason for a code. -/
def systemReason : Nat → String
  | 2 => "No such file or directory"
  | 5 => "Input/output error"
  | 13 => "Permission denied"
  | 20 => "Not a directory"
  | 21 => "Is a directory"
  | 36 => "File name too long"
  | 40 => "Too many levels of symbolic links"
  | code => "Unknown error " ++ code.repr

/-- The wording of a fault. -/
def ReadFault.message : ReadFault → String
  | .system code => systemReason code ++ " (os error " ++ code.repr ++ ")"
  | .notText => "stream did not contain valid UTF-8"

/-- The text of the bytes that were read. -/
def decode : Except ReadFault ByteArray → Except ReadFault String
  | .error fault => .error fault
  | .ok bytes =>
      match String.fromUTF8? bytes with
      | some text => .ok text
      | none => .error .notText

/-- How the command ends: its exit code, its output, and the lines it
writes to standard error. -/
structure Response where
  code : Nat
  output : String
  errors : List String

/-- The response to arguments that the command does not take. -/
def usage : Response := ⟨2, "", ["usage: glipso [path]"]⟩

/-- The response when a program has no value: what it had printed, and a
report on its text. -/
def complain (name source : String) (e : Program.Error) (σ : Store) : Response :=
  ⟨1, σ.printed,
    (Diagnostic.report name source.toList (.ofError source.utf8ByteSize e)).lines⟩

/-- Runs a program in a fresh global scope with the prelude. -/
def runProgram (name source : String) : Response :=
  match Prelude.openGlobal fuel true .empty with
  | .done scope σ =>
      match Program.run fuel source scope σ with
      | .done v τ => ⟨0, (τ.print v.text).printed, []⟩
      | .failed e τ => complain name source e τ
      | .exhausted => ⟨1, "", []⟩
  | .failed e σ => complain "prelude" Prelude.source e σ
  | .exhausted => ⟨1, "", []⟩

/-- The response to a program of this name, from what reading it gave. -/
def respond (name : String) (content : Except ReadFault ByteArray) : Response :=
  match decode content with
  | .error fault => ⟨1, "", ["glipso: " ++ fault.message]⟩
  | .ok source => runProgram name source

/-- The name of standard input in diagnostics. -/
def inputName : String := "<stdin>"

end LazyLisp.CommandLine
