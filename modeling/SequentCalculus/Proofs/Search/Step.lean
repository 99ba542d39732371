import SequentCalculus.Proofs.Search.Limit

/-!
# The steps of a search

A step does one of three things to the topmost branch (`Moves`): it closes the branch, it tries the
closing rule in vain, or it puts the premises of a logical rule in its place.  What is kept along a
search is shown for these three.

The second of them is done once at most.  It leaves a branch for which no rule is left on top of the
stack, and the search ends there.  So as long as there is a step to be taken, the closing rule has
never failed, and no open branch is one on which it was tried (`Untried`, `FailsLast.untried`).
-/

namespace SequentCalculus.Search

variable {s : Store} {problem : Sequent} {state next final : State} {n : Nat}

/-- The rules of the steps so far, in order. -/
def State.rules (state : State) : List Rule :=
  state.steps.reverse.map (·.rule)

theorem rules_advance (state : State) (branch : Branch) (rest : List Branch) (rule : Rule)
    (application : Application) :
    (state.advance branch rest rule application).rules = state.rules ++ [rule] := by
  simp [State.rules, State.advance]

/-- **What a step does** to the topmost branch. -/
inductive Moves (s : Store) (state : State) (branch : Branch) (rest : List Branch) : State → Prop
  | closed (hax : branch.goal.isAxiom = true) :
      Moves s state branch rest (state.advance branch rest .ax .closed)
  | failed (hsat : branch.goal.Saturated) (hax : branch.goal.isAxiom = false) :
      Moves s state branch rest (state.advance branch rest .ax .failed)
  | logical {side : Side} {shape : Shape} {f : Formula} {premises : List Sequent}
      (hinfers : Infers s (.logical side shape f) branch.goal premises) :
      Moves s state branch rest
        (state.advance branch rest (.logical side shape f) (.subgoals premises))

theorem Advances.exists_moves (h : Advances s state next) :
    ∃ branch rest, state.branches = branch :: rest ∧ Moves s state branch rest next := by
  obtain @⟨branch, rest, rule, application, hbranches, hrule, happly⟩ := h
  refine ⟨branch, rest, hbranches, ?_⟩
  cases application with
  | closed =>
    obtain ⟨rfl, hax⟩ := Rule.apply_eq_closed_iff.1 happly
    exact .closed hax
  | failed =>
    obtain ⟨rfl, hax⟩ := Rule.apply_eq_failed_iff.1 happly
    exact .failed (Sequent.saturated_of_nextRule_ax hrule) hax
  | subgoals premises =>
    have hinfers := subgoals_eq_ok_iff.1 (Rule.apply_eq_subgoals_iff.1 happly)
    obtain ⟨side, shape, f, _, _, rfl, -⟩ := Store.subgoals_eq_ok (subgoals_eq_ok_iff.2 hinfers)
    exact .logical hinfers

/-! ### The end of a search -/

/-- When a search ends, at most the saturated branches are counted. -/
theorem Ends.exists_statistics_eq {limit : Option Nat} {run : Run} (h : Ends limit final run) :
    ∃ saturated, run.statistics = { final.statistics with saturatedBranches := saturated } := by
  cases h <;> exact ⟨_, rfl⟩

theorem Ends.remaining_eq {limit : Option Nat} {run : Run} (h : Ends limit final run) :
    run.remaining = final.branches.map (·.goal) := by
  cases h <;> rfl

/-! ### The closing rule fails last -/

/-- The closing rule has not failed so far, and was tried on none of the open branches. -/
structure Untried (state : State) : Prop where
  failedAxioms : state.statistics.failedAxioms = 0
  last : ∀ branch ∈ state.branches, branch.last ≠ .closing

/-- The closing rule has not failed so far, or it has failed once and the search is about to end. -/
def FailsLast (state : State) : Prop :=
  Untried state ∨ (state.statistics.failedAxioms = 1 ∧ TopFinished state)

theorem TopFinished.not_advances (h : TopFinished state) : ¬Advances s state next := by
  obtain ⟨branch, rest, hbranches, hnone⟩ := h
  rintro ⟨hbranches', hrule, -⟩
  rw [hbranches] at hbranches'
  cases hbranches'
  rw [hnone] at hrule
  cases hrule

theorem failsLast_ofProblem (s : Store) (problem : Sequent) : FailsLast (.ofProblem s problem) :=
  .inl ⟨rfl, by simp [State.ofProblem]⟩

/-- As long as there is a step to be taken, the closing rule has not failed. -/
theorem FailsLast.untried (h : FailsLast state) (hstep : Advances s state next) :
    Untried state :=
  h.resolve_right fun hfinished => hfinished.2.not_advances hstep

theorem FailsLast.step (h : FailsLast state) (hstep : Advances s state next) : FailsLast next := by
  obtain ⟨hfailed, hlast⟩ := h.untried hstep
  obtain ⟨branch, rest, hbranches, hmoves⟩ := hstep.exists_moves
  rw [hbranches, List.forall_mem_cons] at hlast
  cases hmoves with
  | closed hax => exact .inl ⟨hfailed, hlast.2⟩
  | failed hsat hax =>
    -- the branch is put back, and the closing rule is not tried on it again
    refine .inr ⟨congrArg (· + 1) hfailed, _, rest, rfl, ?_⟩
    exact hsat.nextRule_eq .closing
  | logical hinfers =>
    refine .inl ⟨hfailed, List.forall_mem_append.2 ⟨?_, hlast.2⟩⟩
    exact List.forall_mem_map.2 fun premise _ => nofun

theorem AdvancesBy.failsLast (h : AdvancesBy s (.ofProblem s problem) n final) :
    FailsLast final := by
  induction h with
  | refl => exact failsLast_ofProblem s problem
  | snoc _ hstep ih => exact ih.step hstep

end SequentCalculus.Search
