import SequentCalculus.Proofs.Search.Step

/-!
# The effort of a search

A rule takes a connective away, but a rule with two premises copies everything else.  So the tree of
a search may be exponential in the number `n` of connectives of its problem, while there are no more
than `n` rules on a branch, and one attempt to close it.

The stack is not longer than that.  Below a goal wait the second premises of rules on the way to it,
and each of these rules has taken a connective away: the connectives of a goal and the goals below
it are `n` at most (`Stacked`).

The steps are no more than the goals that can come up from the problem (`Store.goalBound`).  A step
uses up one of them, and the branches that it leaves have the others at their disposal
(`Branch.effort`).  When the closing rule fails on a branch, this is put back one rule deeper, but
nothing more is done on it.
-/

namespace SequentCalculus.Search

variable {s : Store} {problem : Sequent} {state next final : State} {branch : Branch}
  {rest : List Branch} {n k : Nat}

/-! ### The counters -/

section Counters

variable (state : State) (branch : Branch) (rest : List Branch) (rule : Rule)
  (application : Application)

theorem maxOpenGoals_advance :
    let next := state.advance branch rest rule application
    next.statistics.maxOpenGoals =
      max state.statistics.maxOpenGoals next.branches.length := by
  cases application <;> rfl

theorem maxBranchDepth_advance :
    (state.advance branch rest rule application).statistics.maxBranchDepth =
      max state.statistics.maxBranchDepth (branch.depth + 1) := by
  cases application <;> rfl

theorem problemConnectives_advance :
    (state.advance branch rest rule application).statistics.problemConnectives =
      state.statistics.problemConnectives := by
  cases application <;> rfl

end Counters

/-! ### The stack -/

/-- The connectives of a goal and the goals below it are `n` at most, all along the stack. -/
def Stacked (s : Store) (n : Nat) : List Sequent → Prop
  | [] => True
  | goal :: goals => s.weight goal + goals.length ≤ n ∧ Stacked s n goals

theorem Stacked.length_le {goals : List Sequent} (h : Stacked s n goals) :
    goals.length ≤ n + 1 := by
  cases goals with
  | nil => exact Nat.zero_le _
  | cons goal goals =>
    have htop := h.1
    rw [List.length_cons]
    omega

/-- The connective that a rule takes away makes room for its second premise. -/
theorem Stacked.infers {rule : Rule} {goal : Sequent} {goals premises : List Sequent}
    (h : Stacked s n (goal :: goals)) (hinfers : Infers s rule goal premises) :
    Stacked s n (premises ++ goals) := by
  obtain ⟨htop, hgoals⟩ := h
  have hlength := hinfers.length_le
  have hless : ∀ premise ∈ premises, s.weight premise + 1 + goals.length ≤ n := by
    intro premise hpremise
    have hlt := hinfers.weight_lt hpremise
    omega
  match premises, hlength with
  | [], _ => exact hgoals
  | [a], _ =>
    have ha := hless a (by simp)
    simp only [List.cons_append, List.nil_append]
    exact ⟨by omega, hgoals⟩
  | [a, b], _ =>
    have ha := hless a (by simp)
    have hb := hless b (by simp)
    simp only [List.cons_append, List.nil_append]
    -- the first premise lies one higher than its conclusion did, on the second one
    refine ⟨?_, by omega, hgoals⟩
    rw [List.length_cons]
    omega

/-! ### What is bounded -/

/-- The steps that a branch can still give rise to. -/
def Branch.effort (s : Store) (branch : Branch) : Nat :=
  if branch.last = .closing then 0 else s.goalBound branch.goal

/-- **The bounds** that `n` connectives set to the stack and to the two maxima.  On the way to a
branch there are no more rules than connectives were taken away, unless it is finished. -/
structure Bounded (s : Store) (n : Nat) (state : State) : Prop where
  depth : ∀ branch ∈ state.branches, branch.last ≠ .closing →
    branch.depth + s.weight branch.goal ≤ n
  stacked : Stacked s n (state.branches.map (·.goal))
  maxOpenGoals : state.statistics.maxOpenGoals ≤ n + 1
  maxBranchDepth : state.statistics.maxBranchDepth ≤ n + 1

theorem bounded_ofProblem (s : Store) (problem : Sequent) :
    Bounded s (s.weight problem) (.ofProblem s problem) where
  depth := by simp [State.ofProblem]
  stacked := ⟨Nat.le_refl _, trivial⟩
  maxOpenGoals := Nat.zero_le _
  maxBranchDepth := Nat.zero_le _

theorem Bounded.length_le (h : Bounded s n state) : state.branches.length ≤ n + 1 := by
  have hlength := h.stacked.length_le
  rwa [List.length_map] at hlength

/-- The maxima are kept if the stack is. -/
theorem Bounded.advance {rule : Rule} {application : Application} (h : Bounded s n state)
    (hdepth : branch.depth ≤ n)
    (hdepths : ∀ other ∈ State.nextBranches branch rest rule application, other.last ≠ .closing →
      other.depth + s.weight other.goal ≤ n)
    (hstacked : Stacked s n ((State.nextBranches branch rest rule application).map (·.goal))) :
    Bounded s n (state.advance branch rest rule application) := by
  have hlength := hstacked.length_le
  rw [List.length_map] at hlength
  refine ⟨hdepths, hstacked, ?_, ?_⟩
  · rw [maxOpenGoals_advance]
    exact Nat.max_le.2 ⟨h.maxOpenGoals, hlength⟩
  · rw [maxBranchDepth_advance]
    exact Nat.max_le.2 ⟨h.maxBranchDepth, by omega⟩

/-- **A step keeps the bounds.** -/
theorem Bounded.step (h : Bounded s n state) (huntried : Untried state)
    (hstep : Advances s state next) : Bounded s n next := by
  obtain ⟨branch, rest, hbranches, hmoves⟩ := hstep.exists_moves
  have hlast := huntried.last branch (by simp [hbranches])
  have hstacked := h.stacked
  have hdepths := h.depth
  rw [hbranches] at hstacked hdepths
  obtain ⟨htop, hrest⟩ := List.forall_mem_cons.1 hdepths
  have hdepth := htop hlast
  cases hmoves with
  | closed hax => exact h.advance (by omega) hrest hstacked.2
  | failed hsat hax =>
    -- the branch may be too deep now, but it is finished
    refine h.advance (by omega) (List.forall_mem_cons.2 ⟨fun hne => ?_, hrest⟩) hstacked
    exact absurd rfl hne
  | logical hinfers =>
    refine h.advance (by omega) (List.forall_mem_append.2 ⟨?_, hrest⟩) ?_
    · refine List.forall_mem_map.2 fun premise hpremise _ => ?_
      have hlt := hinfers.weight_lt hpremise
      show branch.depth + 1 + s.weight premise ≤ n
      omega
    · rw [State.nextBranches, List.map_append, List.map_map, Function.comp_def, List.map_id']
      exact hstacked.infers hinfers

theorem AdvancesBy.bounded (h : AdvancesBy s (.ofProblem s problem) k final) :
    Bounded s (s.weight problem) final := by
  induction h with
  | refl => exact bounded_ofProblem s problem
  | snoc hpath hstep ih => exact ih.step (hpath.failsLast.untried hstep) hstep

/-! ### The number of steps -/

/-- **A step uses up some effort.** -/
theorem Advances.effort_lt (h : Advances s state next) (huntried : Untried state) :
    sumBy (Branch.effort s) next.branches < sumBy (Branch.effort s) state.branches := by
  obtain ⟨branch, rest, hbranches, hmoves⟩ := h.exists_moves
  have hlast := huntried.last branch (by simp [hbranches])
  have heffort : branch.effort s = s.goalBound branch.goal := if_neg hlast
  have hpos := Store.goalBound_pos (s := s) branch.goal
  rw [hbranches, sumBy_cons, heffort]
  cases hmoves with
  | closed hax => exact Nat.lt_add_of_pos_left hpos
  | failed hsat hax =>
    have hnothing : Branch.effort s ⟨branch.goal, .of .ax, branch.depth + 1⟩ = 0 := if_pos rfl
    show _ + sumBy (Branch.effort s) rest < _
    omega
  | @logical side shape f premises hinfers =>
    have hpremises : sumBy (Branch.effort s) (premises.map
        (Branch.mk · (.of (.logical side shape f)) (branch.depth + 1))) =
          sumBy s.goalBound premises := by
      rw [sumBy_map]
      rfl
    have hlt := hinfers.sumBy_goalBound_lt
    simp only [State.advance, State.nextBranches, sumBy_append, hpremises]
    omega

theorem AdvancesBy.effort_le (h : AdvancesBy s (.ofProblem s problem) k final) :
    k + sumBy (Branch.effort s) final.branches ≤ s.goalBound problem := by
  induction h with
  | refl => exact Nat.le_of_eq (Nat.zero_add _)
  | snoc hpath hstep ih =>
    have hlt := hstep.effort_lt (hpath.failsLast.untried hstep)
    omega

/-- A limit that is not below the bound is never reached. -/
theorem search_ne_gaveUp (hs : s.WellFormed) (hproblem : s.OwnsSequent problem)
    {limit : Option Nat} (hlimit : ∀ bound, limit = some bound → s.goalBound problem ≤ bound)
    {run : Run} (hrun : s.search limit problem = .ok run) : run.result ≠ .gaveUp := by
  obtain ⟨k, final, full, hpath, hends⟩ := exists_advancesBy_of_search hs hproblem
  -- the path that is taken without a limit is short enough for the limit
  have hfull : s.search limit problem = .ok full := by
    cases limit with
    | none => exact (hpath.run_eq none).trans (hends.run_eq none)
    | some bound =>
      have heffort := hpath.effort_le
      have hbound := hlimit bound rfl
      exact hpath.search_of_le hends (by omega)
  rw [Except.ok.inj (hrun.symm.trans hfull)]
  exact hends.result_ne_gaveUp

/-! ### The end -/

theorem AdvancesBy.problemConnectives (h : AdvancesBy s (.ofProblem s problem) k final) :
    final.statistics.problemConnectives = s.weight problem := by
  induction h with
  | refl => exact (s.weight_eq problem).symm
  | snoc _ hstep ih =>
    cases hstep
    rw [problemConnectives_advance, ih]

/-- **The connectives of the problem bound the effort of a search**, with any limit or none.  With
`n` connectives there are at most `n + 1` rules on a branch, attempts to close it included, and at
no moment more than `n + 1` open branches.  Altogether there are at most `2 ^ (n + 1) - 1` steps, so
that a search that is allowed as many does not give up. -/
theorem search_effort_bounded (hs : s.Reachable) (hproblem : s.OwnsSequent problem)
    (limit : Option Nat) :
    ∃ run, s.search limit problem = .ok run ∧
      let n := run.statistics.problemConnectives
      n = sumBy s.connectives (problem.left.occurrences ++ problem.right.occurrences) ∧
        run.statistics.maxBranchDepth ≤ n + 1 ∧ run.statistics.maxOpenGoals ≤ n + 1 ∧
        (∀ k state, AdvancesBy s (.ofProblem s problem) k state →
          state.branches.length ≤ n + 1) ∧
        run.statistics.ruleApplications ≤ 2 ^ (n + 1) - 1 ∧
        ((∀ bound, limit = some bound → 2 ^ (n + 1) - 1 ≤ bound) → run.result ≠ .gaveUp) := by
  obtain ⟨k, final, run, hpath, hrun, hends, -⟩ :=
    exists_path_of_search hs.wellFormed hproblem limit
  obtain ⟨saturated, hstatistics⟩ := hends.exists_statistics_eq
  have hn : run.statistics.problemConnectives = s.weight problem := by
    rw [hstatistics]
    exact hpath.problemConnectives
  refine ⟨run, hrun, ?_⟩
  simp only [hn]
  refine ⟨s.weight_eq problem, ?_, ?_, fun k state h => h.bounded.length_le, ?_, fun hlimit => ?_⟩
  · rw [hstatistics]
    exact hpath.bounded.maxBranchDepth
  · rw [hstatistics]
    exact hpath.bounded.maxOpenGoals
  · rw [hends.ruleApplications.1, hpath.ruleApplications]
    exact Nat.le_trans (Nat.le_add_right k _) hpath.effort_le
  · exact search_ne_gaveUp hs.wellFormed hproblem hlimit hrun

/-- The search for `p | q, q | p => p, q` reaches all bounds.  It takes seven steps on two
connectives, and a limit of six makes it give up. -/
theorem search_effort_bounded_tightly :
    let problem : SequentExpr := ⟨[.binary .or (.atom "p") (.atom "q"),
      .binary .or (.atom "q") (.atom "p")], [.atom "p", .atom "q"]⟩
    let built := problem.build (.ofPolicy {})
    (∃ run, built.2.search (some 7) built.1 = .ok run ∧ run.statistics.problemConnectives = 2 ∧
      run.statistics.maxBranchDepth = 2 + 1 ∧ run.statistics.maxOpenGoals = 2 + 1 ∧
      run.statistics.ruleApplications = 2 ^ (2 + 1) - 1 ∧ run.result ≠ .gaveUp) ∧
    (built.2.search (some 6) built.1).toOption.map (·.result) = some .gaveUp := by
  intro problem built
  refine ⟨?_, by decide +kernel⟩
  obtain ⟨hreachable, howns⟩ := Store.reachable_build_sequent {} problem
  obtain ⟨run, hrun, -, -, -, -, -, hends⟩ := search_effort_bounded hreachable howns (some 7)
  have hcounted : (built.2.search (some 7) built.1).toOption.map (fun run =>
      (run.statistics.problemConnectives, run.statistics.maxBranchDepth,
        run.statistics.maxOpenGoals, run.statistics.ruleApplications)) = some (2, 3, 3, 7) := by
    decide +kernel
  rw [hrun] at hcounted
  obtain ⟨hn, hdepth, hopen, hsteps⟩ : run.statistics.problemConnectives = 2 ∧
      run.statistics.maxBranchDepth = 3 ∧ run.statistics.maxOpenGoals = 3 ∧
      run.statistics.ruleApplications = 7 := by
    simpa [Except.toOption] using hcounted
  refine ⟨run, hrun, hn, hdepth, hopen, hsteps, hends fun bound hbound => ?_⟩
  rw [hn, ← Option.some.inj hbound]
  decide

end SequentCalculus.Search
