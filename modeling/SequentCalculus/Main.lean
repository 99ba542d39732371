import SequentCalculus.CommandLine

/-!
# The command line

Reads the options, files and standard input, and writes what the program answers.
-/

namespace SequentCalculus.CommandLine

/-- Writes events as they are shown at a level. -/
def writeEvents (shown : Level) (events : List Event) : IO Unit := do
  let stdout ← IO.getStdout
  for line in events.filterMap (Event.shownLine? shown) do
    stdout.putStrLn line
  stdout.flush

/-- Reads up to the next line feed, which is kept; empty at the end of the input. -/
partial def readLine (stdin : IO.FS.Stream) (begun : List UInt8) : IO (List UInt8) := do
  let bytes ← stdin.read 1
  match bytes.toList with
  | [] => return begun.reverse
  | byte :: _ =>
    if byte == 10 then return (byte :: begun).reverse else readLine stdin (byte :: begun)

/-- Executes the lines of the standard input as they come. -/
partial def converseLoop (shown : Level) (stdin : IO.FS.Stream) (p : ProofState) :
    IO (Except Fault (Option InputError)) := do
  match Text.byteLines (← readLine stdin []) with
  | [] => return .ok none
  | line :: _ =>
    match Session.decode? line with
    | none => return .ok (some .notUtf8)
    | some text =>
      match Session.execute p text with
      | .error fault => return .error fault
      | .ok reply =>
        writeEvents shown reply.events
        if reply.more then converseLoop shown stdin reply.state else return .ok none

/-- The bytes of a file, if it can be read. -/
def readFile? (path : String) : IO (Option (List UInt8)) := do
  try
    let bytes ← IO.FS.readBinFile path
    return some bytes.toList
  catch _ => return none

/-- Reports a fault, which is a mistake in this program. -/
def reportFault (fault : Fault) : IO UInt32 := do
  (← IO.getStderr).putStrLn fault.message
  return 101

/-- Runs an interactive session on the standard input. -/
def converseWithUser (o : Options) : IO UInt32 := do
  writeEvents o.level [Session.loadedEntry]
  match ← converseLoop o.level (← IO.getStdin) (sessionStart o) with
  | .error fault => reportFault fault
  | .ok error =>
    let last := sessionEnd error
    writeEvents o.level last.events
    return last.exitCode.toNat.toUInt32

/-- Decides the problem that the options name. -/
def solveForUser (o : Options) : IO UInt32 := do
  let file ← match o.sequent, o.path with
    | none, some path => readFile? path
    | _, _ => pure none
  let stdin ← match o.sequent, o.path with
    | none, none => (fun bytes => bytes.toList) <$> (← IO.getStdin).readBinToEnd
    | _, _ => pure []
  match run o ⟨stdin, fun _ => file⟩ with
  | .error fault => reportFault fault
  | .ok outcome =>
    writeEvents o.level outcome.events
    return outcome.exitCode.toNat.toUInt32

end SequentCalculus.CommandLine

open SequentCalculus.CommandLine in
/-- Decides a problem, or runs an interactive session. -/
def main (arguments : List String) : IO UInt32 := do
  match Options.ofArgs arguments with
  | .error error =>
    (← IO.getStderr).putStrLn s!"error: {error.message}"
    return 1
  | .ok o => if o.interactive then converseWithUser o else solveForUser o
