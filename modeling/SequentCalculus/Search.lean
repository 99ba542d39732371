import SequentCalculus.Rule.Weight
import SequentCalculus.Search.Statistics
import SequentCalculus.Strategy

/-!
# Proof search

The search keeps a stack of open branches.  It takes the topmost one, applies the rule that the
strategy chooses, and puts the subgoals in its place, the first branch on top.  A branch for which
no rule is left settles the problem: every rule is invertible, so nothing has to be taken back.  The
search may be given a limit on its steps.

A step lowers the potential of the stack (`potential_advance_lt`), so the search ends without a
limit too.
-/

namespace SequentCalculus.Search

/-- A sequent still to be proved. -/
structure Branch where
  goal : Sequent
  last : LastStep
  /-- The number of rules applied on the way to this branch. -/
  depth : Nat
  deriving DecidableEq

/-- One application of a rule during a search. -/
structure Step where
  rule : Rule
  /-- The number of rules on the branch, this one included. -/
  depth : Nat
  deriving DecidableEq, Repr

/-- How a search ends. -/
inductive Result where
  /-- Every branch was closed, by these rules in the order of their application. -/
  | proof (rules : List Rule)
  /-- No rule is left for this sequent, which is no axiom. -/
  | saturated (leaf : Sequent)
  /-- The limit was reached. -/
  | gaveUp
  deriving DecidableEq

/-- Whether a search found its problem to be provable; `none` if it gave up. -/
def Result.provable? : Result → Option Bool
  | .proof _ => some true
  | .saturated _ => some false
  | .gaveUp => none

/-- A search that has ended. -/
structure Run where
  result : Result
  statistics : Statistics
  /-- Every step, in order; also that on which a closing rule failed. -/
  steps : List Step
  /-- The sequents of the branches that are still open, the topmost first. -/
  remaining : List Sequent
  deriving DecidableEq

/-- A search under way. -/
structure State where
  /-- The open branches, the topmost first. -/
  branches : List Branch
  /-- The steps so far, the latest first. -/
  steps : List Step
  statistics : Statistics
  deriving DecidableEq

namespace State

/-- A search before its first step. -/
def ofProblem (s : Store) (problem : Sequent) : State where
  branches := [⟨problem, .start, 0⟩]
  steps := []
  statistics := .ofProblem s problem

/-- What becomes of the branches when a rule is applied to the topmost one. -/
def nextBranches (branch : Branch) (rest : List Branch) (rule : Rule) :
    Application → List Branch
  | .closed => rest
  | .failed => ⟨branch.goal, .of rule, branch.depth + 1⟩ :: rest
  | .subgoals goals => goals.map (⟨·, .of rule, branch.depth + 1⟩) ++ rest

/-- What an application adds to the counters, apart from the two maxima. -/
def countApplication (t : Statistics) (rule : Rule) : Application → Statistics
  | .closed =>
    { t with
      applications := t.applications.increment rule.name
      closedBranches := t.closedBranches + 1 }
  | .failed => { t with failedAxioms := t.failedAxioms + 1 }
  | .subgoals goals =>
    { t with
      applications := t.applications.increment rule.name
      createdGoals := t.createdGoals + goals.length }

/-- The search after a rule was applied to the topmost branch. -/
def advance (state : State) (branch : Branch) (rest : List Branch) (rule : Rule)
    (application : Application) : State :=
  let branches := nextBranches branch rest rule application
  let counted := countApplication state.statistics rule application
  { branches := branches
    steps := ⟨rule, branch.depth + 1⟩ :: state.steps
    statistics :=
      { counted with
        maxOpenGoals := max counted.maxOpenGoals branches.length
        maxBranchDepth := max counted.maxBranchDepth (branch.depth + 1) } }

/-- The search ended in this state. -/
def finish (state : State) (result : Result) : Run where
  result := result
  statistics := state.statistics
  steps := state.steps.reverse
  remaining := state.branches.map (·.goal)

/-- The search ended on a branch for which no rule is left. -/
def finishSaturated (state : State) (branch : Branch) : Run where
  result := .saturated branch.goal
  statistics :=
    { state.statistics with saturatedBranches := state.statistics.saturatedBranches + 1 }
  steps := state.steps.reverse
  remaining := state.branches.map (·.goal)

end State

/-! ### Termination -/

/-- A bound on the steps that a branch can still give rise to. -/
def Branch.potential (s : Store) (branch : Branch) : Nat :=
  4 * s.potential branch.goal + if branch.last = .closing then 0 else 1

/-- A bound on the steps that a search can still take. -/
def State.potential (s : Store) (state : State) : Nat :=
  sumBy (Branch.potential s) state.branches

/-- New branches have less potential than the goal whose subgoals they hold. -/
theorem potential_branches_lt {s : Store} {rule : Rule} {goal : Sequent} {goals : List Sequent}
    {last : LastStep} {depth : Nat} (h : rule.subgoals s goal = .ok goals) :
    sumBy (Branch.potential s) (goals.map (Branch.mk · last depth)) <
      4 * s.potential goal := by
  have hsum : ∀ gs : List Sequent,
      sumBy (Branch.potential s) (gs.map (Branch.mk · last depth)) ≤
        4 * sumBy s.potential gs + gs.length := by
    intro gs
    induction gs with
    | nil => simp
    | cons g gs ih =>
      simp only [List.map_cons, sumBy_cons, List.length_cons, Branch.potential] at ih ⊢
      split <;> omega
  have hle := hsum goals
  have hlt := Store.potential_subgoals_lt h
  have hlength := Store.length_subgoals_le h
  omega

/-- Applying the rule of the strategy to the topmost branch lowers the potential. -/
theorem State.potential_advance_lt {s : Store} {state : State} {branch : Branch}
    {rest : List Branch} {rule : Rule} {application : Application}
    (hbranches : state.branches = branch :: rest)
    (hrule : branch.goal.nextRule branch.last = some rule)
    (happly : rule.apply s branch.goal = .ok application) :
    (state.advance branch rest rule application).potential s < state.potential s := by
  rw [State.potential, State.potential, hbranches]
  simp only [advance, sumBy_cons, Branch.potential]
  have hpos := Store.potential_pos (s := s) branch.goal
  match application with
  | .closed =>
    simp only [nextBranches]
    omega
  | .failed =>
    -- only the closing rule fails, and it is not tried again
    obtain ⟨rfl, -⟩ := Rule.apply_eq_failed_iff.1 happly
    have hlast := Sequent.last_ne_closing_of_nextRule hrule
    simp only [nextBranches, sumBy_cons, Branch.potential, LastStep.of,
      if_true, if_neg hlast]
    omega
  | .subgoals goals =>
    have hlt : sumBy (Branch.potential s)
        (goals.map (Branch.mk · (.of rule) (branch.depth + 1))) < 4 * s.potential branch.goal :=
      potential_branches_lt (Rule.apply_eq_subgoals_iff.1 happly)
    simp only [nextBranches, sumBy_append]
    omega

/-! ### The search -/

/-- Goes on until every branch is closed, some branch is finished, or the limit on further steps is
reached.  The record of all steps serves as the proof.  A closing rule that fails is on record, too,
but no proof comes after it (`run_of_failed`), so that none of the rules of a proof has failed. -/
def run (s : Store) (limit : Option Nat) (state : State) : Except Fault Run :=
  match hbranches : state.branches with
  | [] => .ok (state.finish (.proof (state.steps.reverse.map (·.rule))))
  | branch :: rest =>
    match hrule : branch.goal.nextRule branch.last with
    | none => .ok (state.finishSaturated branch)
    | some rule =>
      if limit = some 0 then .ok (state.finish .gaveUp)
      else
        match happly : rule.apply s branch.goal with
        | .error fault => .error fault
        | .ok application =>
          have := State.potential_advance_lt hbranches hrule happly
          run s (limit.map (· - 1)) (state.advance branch rest rule application)
termination_by state.potential s

/-! ### Equations -/

section Equations

variable {s : Store} {state : State} {branch : Branch} {rest : List Branch} {rule : Rule}
  {limit : Option Nat}

theorem run_eq_proof (hbranches : state.branches = []) :
    run s limit state = .ok (state.finish (.proof (state.steps.reverse.map (·.rule)))) := by
  rw [run]
  split
  · rfl
  · simp_all

/-- A branch for which no rule is left is reported whatever the limit is. -/
theorem run_eq_saturated (hbranches : state.branches = branch :: rest)
    (hrule : branch.goal.nextRule branch.last = none) :
    run s limit state = .ok (state.finishSaturated branch) := by
  rw [run]
  split
  · simp_all
  · rename_i hcons
    obtain ⟨rfl, rfl⟩ := List.cons.inj (hbranches.symm.trans hcons)
    split
    · rfl
    · simp_all

/-- The limit is looked at when there is a rule to be applied. -/
theorem run_eq_gaveUp (hbranches : state.branches = branch :: rest)
    (hrule : branch.goal.nextRule branch.last = some rule) :
    run s (some 0) state = .ok (state.finish .gaveUp) := by
  rw [run]
  split
  · simp_all
  · rename_i hcons
    obtain ⟨rfl, rfl⟩ := List.cons.inj (hbranches.symm.trans hcons)
    split
    · simp_all
    · exact if_pos rfl

theorem run_eq_advance (hbranches : state.branches = branch :: rest)
    (hrule : branch.goal.nextRule branch.last = some rule) (hlimit : limit ≠ some 0)
    {application : Application} (happly : rule.apply s branch.goal = .ok application) :
    run s limit state =
      run s (limit.map (· - 1)) (state.advance branch rest rule application) := by
  rw [run]
  split
  · simp_all
  · rename_i hcons
    obtain ⟨rfl, rfl⟩ := List.cons.inj (hbranches.symm.trans hcons)
    split
    · simp_all
    · rename_i hsome
      obtain rfl := Option.some.inj (hrule.symm.trans hsome)
      rw [if_neg hlimit]
      split
      · simp_all
      · rename_i hok
        rw [Except.ok.inj (happly.symm.trans hok)]

/-- **A closing rule that fails is never followed by a proof.**  Its branch is put back on top of
the stack, no rule is left for it, and the search ends there. -/
theorem run_of_failed (hrule : branch.goal.nextRule branch.last = some rule)
    (happly : rule.apply s branch.goal = .ok .failed) (limit : Option Nat) :
    run s limit (state.advance branch rest rule .failed) =
      .ok ((state.advance branch rest rule .failed).finishSaturated
        ⟨branch.goal, .of rule, branch.depth + 1⟩) := by
  obtain ⟨rfl, -⟩ := Rule.apply_eq_failed_iff.1 happly
  exact run_eq_saturated rfl (Sequent.nextRule_closing_eq_none hrule)

end Equations

end SequentCalculus.Search

namespace SequentCalculus

/-- Searches for a proof of a sequent, with at most as many steps as the limit allows. -/
def Store.search (s : Store) (limit : Option Nat) (problem : Sequent) : Except Fault Search.Run :=
  Search.run s limit (.ofProblem s problem)

end SequentCalculus
