import SequentCalculus.Rule

/-!
# Replaying proofs

A proof is written as the list of its rules, depth first and the first branch first.  Replaying
it applies the rules one after the other, each to the topmost open goal, and accepts the list if
every rule can be applied and no goal is left open.  It does not depend on where the list comes
from, so it checks the search as well as any proof written by hand.
-/

namespace SequentCalculus

/-- One rule of a proof with the goal it was applied to and the subgoals it left. -/
structure Inference where
  goal : Sequent
  rule : Rule
  subgoals : List Sequent
  deriving DecidableEq

/-- A replayed proof: the inferences made, and why the rest was refused. -/
structure Replay where
  inferences : List Inference
  /-- `none` if the proof was accepted. -/
  fault : Option Fault
  deriving DecidableEq

namespace Replay

/-- The replay with one inference in front. -/
def cons (inference : Inference) (replay : Replay) : Replay :=
  { replay with inferences := inference :: replay.inferences }

/-- Replays rules on a stack of open goals, the topmost first. -/
def ofGoals (s : Store) : List Sequent → List Rule → Replay
  | [], [] => ⟨[], none⟩
  | goal :: goals, [] => ⟨[], some (.goalsLeftOpen (goal :: goals).length)⟩
  | [], rule :: _ => ⟨[], some (.noGoalLeft rule.name)⟩
  | goal :: goals, rule :: rules =>
    match rule.apply s goal with
    | .error fault => ⟨[], some fault⟩
    | .ok .failed => ⟨[], some .notClosed⟩
    | .ok .closed => (ofGoals s goals rules).cons ⟨goal, rule, []⟩
    | .ok (.subgoals subgoals) =>
      (ofGoals s (subgoals ++ goals) rules).cons ⟨goal, rule, subgoals⟩

end Replay

/-- Replays a list of rules as a proof of a sequent. -/
def Store.replay (s : Store) (problem : Sequent) (rules : List Rule) : Replay :=
  .ofGoals s [problem] rules

/-! ### Numbered proofs -/

/-- A line of a printed proof. -/
structure ProofLine where
  number : Nat
  inference : Inference
  /-- The numbers of the lines on which the subgoals are proved. -/
  children : List Nat
  deriving DecidableEq

/-- Numbers inferences.  Goals get their numbers when they come up, so that a line can name the
lines of its subgoals: `used` numbers are taken, and `pending` are those of the open goals. -/
def numberFrom (used : Nat) (pending : List Nat) : List Inference → List ProofLine
  | [] => []
  | inference :: inferences =>
    let number := pending.head?.getD (used + 1)
    let used := if pending.isEmpty then used + 1 else used
    let children := List.range' (used + 1) inference.subgoals.length
    ⟨number, inference, children⟩ ::
      numberFrom (used + children.length) (children ++ pending.tail) inferences

/-- The lines of a replayed proof. -/
def Replay.lines (replay : Replay) : List ProofLine :=
  numberFrom 0 [] replay.inferences

/-- The text of a line of a proof. -/
def Store.proofLineText (s : Store) (line : ProofLine) : String :=
  let goal := s.sequentText line.inference.goal
  match line.inference.rule with
  | .ax => s!"{line.number}. {goal}    [AX]"
  | rule =>
    let ruleText := s.ruleText rule
    let children := ", ".intercalate (line.children.map toString)
    s!"{line.number}. {goal}    [{ruleText}] -> {children}"

/-- The description of an open branch: the sequent, and the truth values of the atoms in it under
which it fails. -/
def Store.modelLines (s : Store) (leaf : Sequent) : List String :=
  let atoms (c : Cedent) := c.ofKind .atomic
  s!"% open branch: {s.sequentText leaf}" ::
    (atoms leaf.left).map (fun atom => s!"{s.text atom} = true") ++
    (atoms leaf.right).map (fun atom => s!"{s.text atom} = false")

end SequentCalculus
