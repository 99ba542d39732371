import SequentCalculus.CommandLine.Options
import SequentCalculus.Log
import SequentCalculus.Replay
import SequentCalculus.Search

/-!
# Reports

The result of a search is reported in the form that tools for automated reasoning share: a status
line, and the proof or the model between two lines that mark it.
-/

namespace SequentCalculus.CommandLine

/-- How a program ends. -/
inductive ExitCode where
  /-- The problem was proved, or the session ended. -/
  | proved
  /-- There is no proof, or the limit was reached. -/
  | notProved
  /-- The problem could not be read. -/
  | badInput
  deriving DecidableEq, Repr

/-- The number of an exit code. -/
def ExitCode.toNat : ExitCode → Nat
  | .proved => 0
  | .notProved => 1
  | .badInput => 2

/-- What a program writes, and how it ends. -/
structure Outcome where
  events : List Event
  exitCode : ExitCode
  deriving DecidableEq

/-- The text on the standard output if log entries up to a level are shown. -/
def Outcome.text (outcome : Outcome) (shown : Level) : String :=
  unlines (outcome.events.filterMap (Event.shownLine? shown))

namespace Report

/-- The line that states the status of a problem. -/
def statusLine (status name : String) : String :=
  s!"% SZS status {status} for {name}"

/-- Lines between two lines that mark them as output of some form. -/
def marked (form name : String) (lines : List String) : List String :=
  s!"% SZS output begin {form} for {name}" :: lines ++ [s!"% SZS output end {form} for {name}"]

/-- The lines that list the counters of a search. -/
def statisticsLines (t : Statistics) : List String :=
  t.entries.map fun (key, value) => s!"% {key}: {value}"

/-- The log of a search: every step, then how it ended. -/
def searchEvents (run : Search.Run) : List Event :=
  run.steps.mapIdx (fun index step =>
    .log .trace s!"step {index + 1}: {step.rule.name.text} at depth {step.depth}") ++
  match run.result with
  | .proof rules => [.log .info s!"proof found in {rules.length} steps"]
  | .saturated _ =>
    -- the last step was the closing rule on the branch that stayed open
    let depth := (run.steps.getLast?.map (·.depth)).getD 0
    [.log .debug s!"no rule left at depth {depth}", .log .info "saturated branch found"]
  | .gaveUp => [.log .info "step limit reached"]

/-- The report on a problem that was read. -/
def ofRun (o : Options) (s : Store) (problem : Sequent) (run : Search.Run) :
    Except Fault Outcome :=
  let name := o.problemName
  let statistics := if o.statistics then statisticsLines run.statistics else []
  let shown (lines : List String) := match o.output with
    | .proof => lines
    | .silent => []
  let outcome (lines : List String) (code : ExitCode) : Outcome :=
    ⟨searchEvents run ++ (lines ++ statistics).map .line, code⟩
  match run.result with
  | .proof rules =>
    let replay := s.replay problem rules
    match replay.fault with
    | some fault => .error fault
    | none =>
      let lines := shown (replay.lines.map s.proofLineText)
      .ok (outcome (statusLine "Theorem" name :: marked "Proof" name lines) .proved)
  | .saturated leaf =>
    let lines := shown (s.modelLines leaf)
    .ok (outcome (statusLine "CounterSatisfiable" name :: marked "FiniteModel" name lines)
      .notProved)
  | .gaveUp => .ok (outcome [statusLine "GaveUp" name] .notProved)

/-- The report on a problem that could not be read. -/
def ofError (o : Options) (error : InputError) : Outcome :=
  let status := if error.isUnreadable then "OSError" else "InputError"
  ⟨[.line s!"% {error.message}", .line (statusLine status o.problemName)], .badInput⟩

end Report

end SequentCalculus.CommandLine
