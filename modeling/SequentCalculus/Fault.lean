import SequentCalculus.Formula
import SequentCalculus.RuleName

/-!
# Faults

A fault is a call that breaks the contract of an operation: a rule applied where it does not
belong, a formula removed that is not there.  Faults are kept apart from the errors that a user's
text can cause (`InputError`): the prover itself never runs into one.
-/

namespace SequentCalculus

/-- The ways in which a call can break the contract of an operation. -/
inductive Fault where
  /-- A store was asked for with one name for both constants. -/
  | sameConstants
  /-- A connective was given a wrong number of formulas. -/
  | wrongArity (connective : Connective)
  /-- A formula was taken from a side of a sequent that does not hold it. -/
  | removedAbsent (formula : Formula)
  /-- The closing rule was asked for subgoals. -/
  | noSubgoals (rule : RuleName)
  /-- A rule has fewer subgoals than were asked for. -/
  | noSuchSubgoal
  /-- The principal formula does not have the rule's kind. -/
  | wrongKind (rule : RuleName)
  /-- The principal formula does not stand on the rule's side of the sequent. -/
  | absentPrincipal (rule : RuleName) (side : Side)
  /-- A formula does not belong to the store in use. -/
  | foreignFormula (formula : Formula)
  /-- A proof goes on although every goal is closed. -/
  | noGoalLeft (rule : RuleName)
  /-- The closing rule was applied to a sequent that it does not close. -/
  | notClosed
  /-- A proof stops although goals are open. -/
  | goalsLeftOpen (count : Nat)
  /-- A goal number does not fit into 32 bits. -/
  | idTooLarge
  deriving DecidableEq, Repr

/-- The wording of a fault. -/
def Fault.message : Fault → String
  | .sameConstants => "names for false and true constants must be different"
  | .wrongArity connective => s!"wrong number of subformulas for {connective.name}"
  | .removedAbsent formula => s!"removed absent formula {formula.debugText}"
  | .noSubgoals rule => s!"{rule.text} has no subgoals"
  | .noSuchSubgoal => "no such subgoal"
  | .wrongKind rule => s!"{rule.text} applied to a formula of the wrong type"
  | .absentPrincipal rule side =>
    s!"{rule.text} applied to a formula absent from the {side.word}"
  | .foreignFormula formula => s!"{formula.debugText} is not a formula of this store"
  | .noGoalLeft rule => s!"{rule.text} applied with no goal left"
  | .notClosed => "axiom on an open goal"
  | .goalsLeftOpen count => s!"proof leaves {count} goals open"
  | .idTooLarge => "id bigger than 32 bits required"

end SequentCalculus
