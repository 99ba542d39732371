import SequentCalculus.Log
import SequentCalculus.ProofState
import SequentCalculus.Text.Lines

/-!
# Interactive sessions

A session executes commands, one a line, on a proof state.  A command is a word that begins with a
colon, with the rest of the line as its argument; blank lines and lines that begin with `#` are
passed over.  A session ends at `:quit` or with its input.
-/

namespace SequentCalculus

/-- A command of a session. -/
inductive Command where
  /-- Make a sequent the only goal. -/
  | load (text : List Char)
  /-- List the open goals, or show one of them. -/
  | goals (argument : List Char)
  /-- List the applicable rules of every goal, or of one. -/
  | rules (argument : List Char)
  /-- Refine a goal by the rule at an address. -/
  | refine (argument : List Char)
  /-- Refine the first goal by its first rule as long as there is one. -/
  | auto
  /-- Drop all goals. -/
  | clear
  /-- Describe the commands. -/
  | help
  /-- End the session. -/
  | quit
  /-- Any other word. -/
  | unknown (word : String)
  deriving DecidableEq, Repr

/-- The command on a line that is trimmed, not empty and no comment. -/
def Command.ofLine (line : List Char) : Command :=
  let (word, argument) := Text.splitWord line
  match String.ofList word with
  | ":load" => .load argument
  | ":goals" => .goals argument
  | ":rules" => .rules argument
  | ":refine" => .refine argument
  | ":auto" => .auto
  | ":clear" => .clear
  | ":help" => .help
  | ":?" => .help
  | ":quit" => .quit
  | word => .unknown word

namespace Session

/-- The description of the commands. -/
def helpLines : List String :=
  [":load <sequent>     replace all goals by <sequent>, e.g. :load a, a -> b => b",
    ":goals [<goal>]     show open goals",
    ":rules [<goal>]     show the applicable rules of a goal (default: every goal)",
    ":refine <goal>.<rule>",
    "                    apply a rule, addressed as listed by :rules",
    ":auto               refine with the first rule until done or stuck",
    ":clear              drop all goals",
    ":help, :?           show this text",
    ":quit               leave",
    "# ...               comment"]

/-! ### Lines -/

/-- The line that shows an open goal. -/
def goalLine (s : Store) (id : GoalId) (q : Sequent) : Event :=
  .line s!"{id.text}: {s.sequentText q}"

/-- The lines that show the goals with the given numbers, as far as they are open. -/
def goalLines (p : ProofState) (ids : List GoalId) : List Event :=
  ids.filterMap fun id => (p.goal? id).map (goalLine p.store id)

/-- The line that says that the proof is complete, if it is. -/
def completeLines (p : ProofState) : List Event :=
  if p.isComplete then [.line "no more goals, proof complete"] else []

/-- The line that says that a goal has no applicable rule. -/
def stuckLine (id : GoalId) : Event :=
  .line s!"goal {id.text} has no applicable rules"

/-- The lines that list rules under their addresses. -/
def ruleLines (s : Store) (id : GoalId) (rules : List Rule) : List Event :=
  rules.mapIdx fun index rule => .line s!"{id.text}.{index}\t{s.ruleText rule}"

/-- The log entry for a sequent that became the only goal. -/
def loadedEntry : Event :=
  .log .debug s!"loaded goal {GoalId.zero.text}"

/-- The log entry for a refinement. -/
def refinementEntry (id : GoalId) (rule : Rule) : Refinement → Event
  | .nothingToDo => .log .debug s!"nothing to do for {rule.name.text} on goal {id.text}"
  | .closed => .log .debug s!"closed goal {id.text} by {rule.name.text}"
  | .expanded children =>
    let shown := GoalId.debugTextList children
    .log .debug s!"refined goal {id.text} by {rule.name.text} into {shown}"

/-- The lines that tell what a refinement came to, in the state after it. -/
def report (p : ProofState) (id : GoalId) (refinement : Refinement) : List Event :=
  (match refinement with
    | .nothingToDo => [.line "nothing to do"]
    | .closed => [.line s!"goal {id.text} closed"]
    | .expanded children => goalLines p children) ++ completeLines p

/-! ### Commands -/

/-- What a command wrote, and the state it left. -/
abbrev Outcome : Type := List Event × ProofState

/-- The goal that an argument names, if it is open. -/
def goalNamed? (p : ProofState) (argument : List Char) : Option GoalId :=
  match Text.decimal? argument with
  | none => none
  | some n =>
    match GoalId.ofNat n with
    | .error _ => none
    | .ok id => if (p.goal? id).isSome then some id else none

/-- Lists all open goals. -/
def listGoals (p : ProofState) : List Event :=
  completeLines p ++ goalLines p p.ids

/-- Makes a sequent the only goal. -/
def load (p : ProofState) (text : List Char) : Outcome :=
  match p.load (String.ofList text) with
  | .ok p => (loadedEntry :: listGoals p, p)
  | .error error => ([.line error.message], p)

/-- Lists all open goals, or shows the one that is named. -/
def goals (p : ProofState) (argument : List Char) : List Event :=
  if argument.isEmpty then listGoals p
  else
    match goalNamed? p argument with
    | some id => goalLines p [id]
    | none => [.line "no such goal"]

/-- Lists the applicable rules of a goal. -/
def goalRules (p : ProofState) (id : GoalId) : Outcome :=
  let rules := p.applicableRules id
  match rules.1.getD [] with
  | [] => ([stuckLine id], rules.2)
  | listed => (ruleLines rules.2.store id listed, rules.2)

/-- Shows goals, each with its applicable rules. -/
def goalsWithRules (p : ProofState) : List GoalId → Outcome
  | [] => ([], p)
  | id :: ids =>
    let first := goalRules p id
    let others := goalsWithRules first.2 ids
    (goalLines p [id] ++ first.1 ++ others.1, others.2)

/-- Lists the applicable rules of every open goal, or of the one that is named. -/
def rules (p : ProofState) (argument : List Char) : Outcome :=
  if argument.isEmpty then
    let listed := goalsWithRules p p.ids
    (completeLines p ++ listed.1, listed.2)
  else
    match goalNamed? p argument with
    | some id => goalRules p id
    | none => ([.line "no such goal"], p)

/-- Refines a goal by a rule and tells what came of it. -/
def refineBy (p : ProofState) (id : GoalId) (rule : Rule) :
    Except Fault (Refinement × Outcome) :=
  match p.refine id rule with
  | .error fault => .error fault
  | .ok (refinement, p) =>
    .ok (refinement, refinementEntry id rule refinement :: report p id refinement, p)

/-- Refines a goal by the rule at the address given.  The rule is looked up once: to refine at the
address instead, which looks it up again, comes to the same (`refine_eq_refineAt`). -/
def refine (p : ProofState) (argument : List Char) : Except Fault Outcome :=
  match Address.read (String.ofList argument) with
  | .error error => .ok ([.line error.message], p)
  | .ok address =>
    if (p.goal? address.goal).isNone then .ok ([.line "no such goal"], p)
    else
      match p.ruleAt address with
      | (none, p) => .ok ([.line "no such rule"], p)
      | (some rule, p) => (refineBy p address.goal rule).map (·.2)

/-- **The second lookup makes no difference**: in every state the command does what it would do by
looking for the rule first and refining at the address afterwards. -/
theorem refine_eq_refineAt (p : ProofState) (argument : List Char) :
    refine p argument =
      match Address.read (String.ofList argument) with
      | .error error => .ok ([.line error.message], p)
      | .ok address =>
        if (p.goal? address.goal).isNone then .ok ([.line "no such goal"], p)
        else
          match p.ruleAt address with
          | (none, p) => .ok ([.line "no such rule"], p)
          | (some rule, p) =>
            (p.refineAt address).map fun (refinement, p) =>
              (refinementEntry address.goal rule refinement :: report p address.goal refinement,
                p) := by
  unfold refine
  split
  · rfl
  · split
    · rfl
    · split
      · rfl
      · rename_i rule next hrule
        rw [ProofState.refineAt_of_ruleAt hrule, refineBy]
        cases next.refine _ rule <;> rfl

/-- The applicable rules of a goal can be asked for without changing the potential. -/
theorem potential_applicableRules (p : ProofState) (id : GoalId) :
    (p.applicableRules id).2.potential = p.potential := by
  rw [ProofState.applicableRules]
  split
  · rfl
  · exact ProofState.potential_remember p id

/-- Refines the first goal by its first rule as long as there is one.  It stops after a refinement
that came to nothing, instead of asking for the same one again and again.  In a session there is no
such refinement, since a rule that is listed does something (`refine_first_ne_nothingToDo`). -/
def auto (p : ProofState) : Except Fault Outcome :=
  match p.first? with
  | none => .ok ([], p)
  | some id =>
    match (p.applicableRules id).1.getD [] with
    | [] => .ok ([stuckLine id], (p.applicableRules id).2)
    | rule :: _ =>
      match hrefine : (p.applicableRules id).2.refine id rule with
      | .error fault => .error fault
      | .ok (refinement, next) =>
        let written := refinementEntry id rule refinement :: report next id refinement
        if hdone : refinement = .nothingToDo then .ok (written, next)
        else
          have : next.potential < p.potential :=
            potential_applicableRules p id ▸ ProofState.potential_refine_lt hrefine hdone
          (auto next).map fun rest => (written ++ rest.1, rest.2)
termination_by p.potential

/-- What executing a line came to. -/
structure Reply where
  events : List Event
  state : ProofState
  /-- Whether the session goes on. -/
  more : Bool
  deriving DecidableEq

/-- Executes a command. -/
def perform (p : ProofState) : Command → Except Fault Outcome
  | .load text => .ok (load p text)
  | .goals argument => .ok (goals p argument, p)
  | .rules argument => .ok (rules p argument)
  | .refine argument => refine p argument
  | .auto => auto p
  | .clear => .ok ([.line "all goals dropped"], p.reset)
  | .help => .ok (helpLines.map .line, p)
  | .quit => .ok ([], p)
  | .unknown word => .ok ([.line s!"unknown command {word}, try :help"], p)

/-- Executes a line. -/
def execute (p : ProofState) (line : String) : Except Fault Reply :=
  match Text.trim line.toList with
  | [] => .ok ⟨[], p, true⟩
  | '#' :: _ => .ok ⟨[], p, true⟩
  | trimmed =>
    let command := Command.ofLine trimmed
    match perform p command with
    | .error fault => .error fault
    | .ok (events, p) =>
      .ok ⟨.log .debug s!"command: {String.ofList trimmed}" :: events, p, command != .quit⟩

/-! ### Whole sessions -/

/-- The text of some bytes, if they are UTF-8. -/
def decode? (bytes : List UInt8) : Option String :=
  String.fromUTF8? ⟨bytes.toArray⟩

/-- A session that has ended. -/
structure Ended where
  events : List Event
  state : ProofState
  /-- What ended the session before its input did. -/
  error : Option InputError
  deriving DecidableEq

/-- Executes lines until the session or its input ends, or a line cannot be decoded. -/
def runLines (p : ProofState) : List (List UInt8) → Except Fault Ended
  | [] => .ok ⟨[], p, none⟩
  | line :: lines =>
    match decode? line with
    | none => .ok ⟨[], p, some .notUtf8⟩
    | some text =>
      match execute p text with
      | .error fault => .error fault
      | .ok reply =>
        if reply.more then
          (runLines reply.state lines).map fun ended =>
            { ended with events := reply.events ++ ended.events }
        else .ok ⟨reply.events, reply.state, none⟩

/-- Runs a session on its whole input. -/
def run (p : ProofState) (input : List UInt8) : Except Fault Ended :=
  runLines p (Text.byteLines input)

end Session

end SequentCalculus
