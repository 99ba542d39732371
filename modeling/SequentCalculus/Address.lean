import SequentCalculus.GoalId
import SequentCalculus.InputError
import SequentCalculus.Text.Blank
import SequentCalculus.Text.Decimal

/-!
# Addresses of rules

A rule that can be applied to an open goal is addressed as `<goal>.<rule>`: the number of the goal
and the position of the rule among the applicable rules of that goal, counted from 0.
-/

namespace SequentCalculus

/-- The address of an applicable rule. -/
structure Address where
  goal : GoalId
  /-- The position among the applicable rules. -/
  rule : Nat
  rule_lt : rule < UInt64.size
  deriving DecidableEq, Repr

namespace Address

/-- The text of an address. -/
def text (a : Address) : String :=
  s!"{a.goal.index}.{a.rule}"

/-- The address made of two numbers, if both fit. -/
def ofNats? (goal rule : Nat) : Option Address :=
  if hgoal : goal < UInt32.size then
    if hrule : rule < UInt64.size then some ⟨⟨goal, hgoal⟩, rule, hrule⟩ else none
  else none

/-- The address that a text spells out: two numbers with a dot between them. -/
def ofChars? (cs : List Char) : Option Address :=
  match cs.dropWhile (· != '.') with
  | [] => none
  | _dot :: rule =>
    match Text.decimal? (cs.takeWhile (· != '.')), Text.decimal? rule with
    | some goal, some rule => ofNats? goal rule
    | _, _ => none

/-- Reads an address; blanks at both ends do not matter. -/
def read (text : String) : Except InputError Address :=
  match ofChars? (Text.trim text.toList) with
  | some address => .ok address
  | none => .error (.malformedAddress text)

end Address

end SequentCalculus
