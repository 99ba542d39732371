import SequentCalculus.Rule

/-!
# Statistics of a search

Counters kept while a search runs, and the order in which they are reported.
-/

namespace SequentCalculus

/-- How often each rule was applied. -/
abbrev Tally : Type := List (RuleName × Nat)

namespace Tally

/-- The number of applications of a rule. -/
def count (tally : Tally) (name : RuleName) : Nat :=
  (tally.lookup name).getD 0

/-- One more application of a rule. -/
def increment (tally : Tally) (name : RuleName) : Tally :=
  match tally with
  | [] => [(name, 1)]
  | (other, n) :: rest =>
    if other = name then (other, n + 1) :: rest else (other, n) :: increment rest name

/-- The number of applications of all rules. -/
def total (tally : Tally) : Nat :=
  sumBy (·.2) tally

end Tally

/-- The counters of a search. -/
structure Statistics where
  problemFormulas : Nat := 0
  problemConnectives : Nat := 0
  internedFormulas : Nat := 0
  applications : Tally := []
  failedAxioms : Nat := 0
  createdGoals : Nat := 0
  closedBranches : Nat := 0
  saturatedBranches : Nat := 0
  maxOpenGoals : Nat := 0
  maxBranchDepth : Nat := 0
  deriving DecidableEq, Repr

namespace Statistics

/-- The counters before the first step on a problem: its size, and that of the store. -/
def ofProblem (s : Store) (problem : Sequent) : Statistics where
  problemFormulas := problem.left.size + problem.right.size
  problemConnectives :=
    sumBy s.connectives (problem.left.occurrences ++ problem.right.occurrences)
  internedFormulas := s.size
  createdGoals := 1

/-- The number of steps: rules that were applied, and closing rules that failed. -/
def ruleApplications (t : Statistics) : Nat :=
  t.applications.total + t.failedAxioms

/-- Every counter with its name, in the order in which they are reported.  Of the rules only those
that were applied are listed. -/
def entries (t : Statistics) : List (String × Nat) :=
  [("problem formulas", t.problemFormulas),
    ("problem connectives", t.problemConnectives),
    ("interned formulas", t.internedFormulas)] ++
  (RuleName.all.filterMap fun name => (t.applications.lookup name).map (name.text, ·)) ++
  [("failed axioms", t.failedAxioms),
    ("created goals", t.createdGoals),
    ("closed branches", t.closedBranches),
    ("saturated branches", t.saturatedBranches),
    ("max open goals", t.maxOpenGoals),
    ("max branch depth", t.maxBranchDepth)]

end Statistics

end SequentCalculus
