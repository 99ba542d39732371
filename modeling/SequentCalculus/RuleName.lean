import SequentCalculus.Connective

/-!
# Names of rules

The calculus has one rule for each shape of formula on each side of a sequent, and one rule that
closes a sequent.
-/

namespace SequentCalculus

/-- The two sides of a sequent. -/
inductive Side where
  | left
  | right
  deriving DecidableEq, Repr

/-- The name of a side inside the names of its rules. -/
def Side.name : Side → String
  | .left => "LEFT"
  | .right => "RIGHT"

/-- The name of a side in messages. -/
def Side.word : Side → String
  | .left => "left"
  | .right => "right"

/-- The rules of the calculus without their principal formula. -/
inductive RuleName where
  /-- Closes a sequent. -/
  | ax
  /-- Takes a formula of one shape apart on one side. -/
  | logical (side : Side) (shape : Shape)
  deriving DecidableEq, Repr

namespace RuleName

/-- All rule names, in alphabetical order of their text. -/
def all : List RuleName :=
  [.ax, .logical .left .and, .logical .left .implies, .logical .left .not, .logical .left .or,
    .logical .right .and, .logical .right .implies, .logical .right .not, .logical .right .or]

/-- How a rule is called. -/
def text : RuleName → String
  | .ax => "AX"
  | .logical side shape => s!"{side.name}_{shape.name}"

/-- The rule called `text`. -/
def ofText? (text : String) : Option RuleName :=
  all.find? (·.text == text)

/-- The number of subgoals of a rule. -/
def numSubgoals : RuleName → Nat
  | .ax => 0
  | .logical .left .and => 1
  | .logical .right .and => 2
  | .logical .left .or => 2
  | .logical .right .or => 1
  | .logical .left .implies => 2
  | .logical .right .implies => 1
  | .logical _ .not => 1

end RuleName

end SequentCalculus
