import LazyLisp.Interactive

/-!
# The programs

Reading, writing and exit codes around the command line
(`CommandLine.respond`) and the interactive session (`Interactive.feed`).
One executable is both: under a name that ends in `-repl` it is the
session, under any other the command line.
-/

namespace LazyLisp.Main

/-- All bytes of a stream. -/
partial def readAll (stream : IO.FS.Stream) (read : ByteArray) : IO ByteArray := do
  let chunk ← stream.read 65536
  if chunk.isEmpty then return read else readAll stream (read ++ chunk)

/-- The bytes of a stream up to a line feed, which is included. -/
partial def readLine (stream : IO.FS.Stream) (read : ByteArray) : IO ByteArray := do
  let chunk ← stream.read 1
  if chunk.isEmpty then return read
  else if chunk.data.contains 10 then return read ++ chunk
  else readLine stream (read ++ chunk)

/-- The fault for a code of the system, which may arrive negated. -/
def faultOfCode (code : UInt32) : CommandLine.ReadFault :=
  .system (if code.toNat < 0x80000000 then code.toNat else 0x100000000 - code.toNat)

/-- The reason why the system refused to read. -/
def refusal : IO.Error → CommandLine.ReadFault
  | .noFileOrDirectory _ code _ | .inappropriateType _ code _ | .permissionDenied _ code _
  | .invalidArgument _ code _ | .resourceExhausted _ code _ | .otherError code _ => faultOfCode code
  | _ => .system 5

/-- The bytes of a file. -/
def readFile (path : String) : IO (Except CommandLine.ReadFault ByteArray) := do
  try
    return .ok (← IO.FS.readBinFile path)
  catch e =>
    return .error (refusal e)

/-- Writes a response and gives its exit code. -/
def write (response : CommandLine.Response) : IO UInt32 := do
  IO.print response.output
  for line in response.errors do
    IO.eprintln line
  return response.code.toUInt32

/-- The command line. -/
def runCommand (args : List String) : IO UInt32 := do
  match CommandLine.request args with
  | .unknown => write CommandLine.usage
  | .file path => write (CommandLine.respond path (← readFile path))
  | .standardInput =>
      let bytes ← readAll (← IO.getStdin) ByteArray.empty
      write (CommandLine.respond CommandLine.inputName (.ok bytes))

/-- Where a session leaves its lines for the next one. -/
def historyFile : String := "glipso_history.txt"

/-- Writes what a session has said since the last time. -/
def flush (s : Interactive.Session) : IO Interactive.Session := do
  IO.print s.store.printed
  for line in s.complaints do
    IO.eprintln line
  return { s with store := { s.store with printed := "" }, complaints := [] }

/-- Feeds a session with lines until it ends. -/
partial def converse (stream : IO.FS.Stream) (s : Interactive.Session) :
    IO Interactive.Session := do
  if s.ended then return s
  let line ← readLine stream ByteArray.empty
  if line.isEmpty then flush (Interactive.finish s)
  else converse stream (← flush (Interactive.feed .plain s line))

/-- The interactive session. -/
def runSession : IO UInt32 := do
  let earlier ← readFile historyFile
  let hasHistory := earlier.toBool
  let s ← flush (Interactive.start hasHistory)
  let s ← converse (← IO.getStdin) s
  if !s.accepted.isEmpty then
    let old := earlier.toOption.getD ByteArray.empty
    let new := String.join (s.accepted.reverse.map (· ++ "\n"))
    IO.FS.writeBinFile historyFile (old ++ new.toUTF8)
  return 0

end LazyLisp.Main

/-- Runs the program that the executable is named for. -/
def main (args : List String) : IO UInt32 := do
  if (← IO.appPath).toString.endsWith "-repl" then LazyLisp.Main.runSession
  else LazyLisp.Main.runCommand args
