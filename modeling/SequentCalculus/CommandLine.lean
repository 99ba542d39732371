import SequentCalculus.CommandLine.Report
import SequentCalculus.Problem
import SequentCalculus.Session

/-!
# The program behind the command line

Given its options and its input, the program decides one problem or runs an interactive session.
-/

namespace SequentCalculus.CommandLine

/-- What the program can read. -/
structure Input where
  /-- The bytes of the standard input. -/
  stdin : List UInt8
  /-- The bytes of a file, if there is such a file. -/
  file? : String → Option (List UInt8)

/-- The level up to which log entries are shown. -/
def Options.level (o : Options) : Level :=
  .ofVerbosity o.verbosity

/-- The text of some bytes. -/
def decode (bytes : List UInt8) : Except InputError String :=
  match Session.decode? bytes with
  | some text => .ok text
  | none => .error .notUtf8

/-- The text of the problem. -/
def problemText (o : Options) (input : Input) : Except InputError String :=
  match o.sequent, o.path with
  | some text, _ => .ok text
  | none, some path =>
    match input.file? path with
    | some bytes => decode bytes
    | none => .error .noFile
  | none, none => decode input.stdin

/-- Decides one problem. -/
def solve (o : Options) (text : Except InputError String) : Except Fault Outcome :=
  match text with
  | .error error => .ok (Report.ofError o error)
  | .ok text =>
    match (Store.ofPolicy o.policy).readProblem text with
    | .error error => .ok (Report.ofError o error)
    | .ok (problem, s) =>
      match s.search o.steps problem with
      | .error fault => .error fault
      | .ok run => Report.ofRun o s problem run

/-- The state in which a session begins. -/
def sessionStart (o : Options) : ProofState :=
  .ofStore (.ofPolicy o.policy)

/-- The end of a session. -/
def sessionEnd : Option InputError → Outcome
  | none => ⟨[], .proved⟩
  | some error => ⟨[.line s!"% {error.message}"], .badInput⟩

/-- Runs an interactive session. -/
def converse (o : Options) (stdin : List UInt8) : Except Fault Outcome :=
  (Session.run (sessionStart o) stdin).map fun ended =>
    let last := sessionEnd ended.error
    ⟨Session.loadedEntry :: ended.events ++ last.events, last.exitCode⟩

/-- Runs the program. -/
def run (o : Options) (input : Input) : Except Fault Outcome :=
  if o.interactive then converse o input.stdin else solve o (problemText o input)

end SequentCalculus.CommandLine
