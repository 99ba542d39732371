/-!
# Log levels and events

What a program writes is a list of events in the order in which they happen: lines of output, and
log entries that are only shown if the level asked for admits them.
-/

namespace SequentCalculus

/-- How much is logged, and how important an entry is. -/
inductive Level where
  | warn
  | info
  | debug
  | trace
  deriving DecidableEq, Repr

namespace Level

/-- The level asked for by a number of `-v`: warnings only by default, each `-v` one level more. -/
def ofVerbosity : Nat → Level
  | 0 => .warn
  | 1 => .info
  | 2 => .debug
  | _ => .trace

/-- The name of a level. -/
def name : Level → String
  | .warn => "WARN"
  | .info => "INFO"
  | .debug => "DEBUG"
  | .trace => "TRACE"

/-- The place of a level, the most important first. -/
def rank : Level → Nat
  | .warn => 0
  | .info => 1
  | .debug => 2
  | .trace => 3

end Level

/-- Something written. -/
inductive Event where
  /-- A line of output. -/
  | line (text : String)
  /-- A log entry. -/
  | log (level : Level) (text : String)
  deriving DecidableEq, Repr

namespace Event

/-- The line that an event shows if log entries up to `shown` are wanted. -/
def shownLine? (shown : Level) : Event → Option String
  | .line text => some text
  | .log level text =>
    if level.rank ≤ shown.rank then some s!"% [{level.name}] {text}" else none

/-- The line that an event shows if no log is wanted. -/
def outputLine? : Event → Option String
  | .line text => some text
  | .log _ _ => none

end Event

/-- Lines as one text, each ended by a line feed. -/
def unlines (lines : List String) : String :=
  String.join (lines.map (· ++ "\n"))

end SequentCalculus
