import SequentCalculus.Proofs.Search.Step

/-!
# The counters of a search

The counters of a search are raised at different places, and the search ends in three ways.  They
have to do with each other nevertheless, and with the record of the steps (`Balanced`):

* every goal that was created is still open or was taken away by an application of a rule;
* every branch that was closed was closed by the closing rule;
* a rule with two subgoals makes two branches of one, and no other rule makes more of them;
* the record holds each rule as often as it was applied, and the closing rule once more for each
  time that it has failed.

A step keeps all of it (`Balanced.step`).  The closing rule fails at most once in a search, on the
branch with which the search ends (`FailsLast`), so the result tells how often it has failed
(`search_counters_balance`).
-/

namespace SequentCalculus

/-! ### Tallies -/

namespace Tally

theorem count_nil (name : RuleName) : count [] name = 0 :=
  rfl

theorem count_cons (first name : RuleName) (n : Nat) (rest : Tally) :
    count ((first, n) :: rest) name = if name = first then n else rest.count name := by
  unfold count
  rw [List.lookup_cons]
  by_cases h : name = first
  · simp [h]
  · rw [beq_false_of_ne h, if_neg h]

theorem count_increment (tally : Tally) (name other : RuleName) :
    (tally.increment name).count other = tally.count other + if other = name then 1 else 0 := by
  induction tally with
  | nil => rw [increment, count_cons, count_nil, Nat.zero_add]
  | cons entry rest ih =>
    obtain ⟨first, n⟩ := entry
    rw [increment]
    split
    · rename_i hfirst
      rw [count_cons, count_cons, hfirst]
      split <;> rfl
    · rename_i hfirst
      rw [count_cons, count_cons, ih]
      split
      · rename_i hother
        rw [hother, if_neg hfirst, Nat.add_zero]
      · rfl

/-- The number of applications of the rules that have two subgoals. -/
def splits (tally : Tally) : Nat :=
  tally.count (.logical .right .and) + tally.count (.logical .left .or) +
    tally.count (.logical .left .implies)

theorem sumBy_count_increment (tally : Tally) (name : RuleName) :
    sumBy (tally.increment name).count RuleName.all = sumBy tally.count RuleName.all + 1 := by
  simp only [RuleName.all, sumBy_cons, sumBy_nil, count_increment]
  rcases name with _ | ⟨_ | _, _ | _ | _ | _⟩ <;> simp <;> omega

theorem splits_increment_ax (tally : Tally) : (tally.increment .ax).splits = tally.splits := by
  simp [splits, count_increment]

theorem splits_increment_logical (tally : Tally) (side : Side) (shape : Shape) :
    (tally.increment (.logical side shape)).splits + 1 =
      tally.splits + (RuleName.logical side shape).numSubgoals := by
  simp only [splits, count_increment]
  cases side <;> cases shape <;> simp [RuleName.numSubgoals] <;> omega

end Tally

namespace Search

/-- The number of saturated branches with which a search ends. -/
def Result.saturatedLeaves : Result → Nat
  | .saturated _ => 1
  | _ => 0

/-- What may be open when a search ends: nothing after a proof, the saturated leaf and what lies
below it, or something if the search has given up. -/
def Result.LeavesOpen : Result → List Sequent → Prop
  | .proof _, goals => goals = []
  | .saturated leaf, goals => goals.head? = some leaf
  | .gaveUp, goals => goals ≠ []

variable {s : Store} {problem : Sequent} {state next final : State} {n : Nat}

/-! ### The tally and the record -/

/-- **The tally agrees with the record**, in which the closing rule also stands where it has
failed. -/
structure Tallied (state : State) : Prop where
  total : sumBy state.statistics.applications.count RuleName.all =
    state.statistics.applications.total
  recorded : ∀ name, state.rules.countP (·.name = name) =
    state.statistics.applications.count name +
      if name = .ax then state.statistics.failedAxioms else 0

theorem tallied_ofProblem (s : Store) (problem : Sequent) : Tallied (.ofProblem s problem) where
  total := rfl
  recorded name := by cases name <;> rfl

theorem countP_name_append (rules : List Rule) (rule : Rule) (name : RuleName) :
    (rules ++ [rule]).countP (·.name = name) =
      rules.countP (·.name = name) + if name = rule.name then 1 else 0 := by
  rw [List.countP_append]
  by_cases h : name = rule.name
  · simp [h]
  · simp [h, Ne.symm h]

/-- A rule that was applied is tallied. -/
theorem Tallied.applied (h : Tallied state) {rule : Rule}
    (happlied : next.statistics.applications = state.statistics.applications.increment rule.name)
    (hfailed : next.statistics.failedAxioms = state.statistics.failedAxioms)
    (hrules : next.rules = state.rules ++ [rule]) : Tallied next := by
  refine ⟨?_, fun name => ?_⟩
  · rw [happlied, Tally.sumBy_count_increment, Tally.total_increment, h.total]
  · rw [happlied, hfailed, hrules, countP_name_append, Tally.count_increment, h.recorded]
    omega

/-- **A step keeps the tally.** -/
theorem Tallied.step (h : Tallied state) (hstep : Advances s state next) : Tallied next := by
  obtain ⟨branch, rest, -, hmoves⟩ := hstep.exists_moves
  cases hmoves with
  | closed hax => exact h.applied rfl rfl (rules_advance ..)
  | logical hinfers => exact h.applied rfl rfl (rules_advance ..)
  | failed hsat hax =>
    -- the record grows by a closing rule, which is counted as a failure and not tallied
    refine ⟨h.total, fun name => ?_⟩
    rw [rules_advance, countP_name_append, h.recorded, Nat.add_assoc]
    by_cases hname : name = .ax <;>
      simp [hname, State.advance, State.countApplication, Rule.name]

/-! ### The balance -/

/-- **What the numbers of goals and branches have to do with each other.** -/
structure Balanced (state : State) : Prop where
  created : state.statistics.createdGoals =
    sumBy state.statistics.applications.count RuleName.all + state.branches.length
  closed : state.statistics.closedBranches = state.statistics.applications.count .ax
  split : state.statistics.closedBranches + state.branches.length =
    1 + state.statistics.applications.splits
  saturated : state.statistics.saturatedBranches = 0

theorem balanced_ofProblem (s : Store) (problem : Sequent) : Balanced (.ofProblem s problem) where
  created := rfl
  closed := rfl
  split := rfl
  saturated := rfl

/-- **A step keeps the balance.** -/
theorem Balanced.step (h : Balanced state) (hstep : Advances s state next) : Balanced next := by
  obtain ⟨branch, rest, hbranches, hmoves⟩ := hstep.exists_moves
  obtain ⟨hcreated, hclosed, hsplit, hsaturated⟩ := h
  rw [hbranches, List.length_cons] at hcreated hsplit
  cases hmoves with
  | closed hax =>
    constructor <;>
      simp only [State.advance, State.countApplication, State.nextBranches, Rule.name,
        Tally.sumBy_count_increment, Tally.count_increment, Tally.splits_increment_ax, if_true] <;>
      omega
  | failed hsat hax =>
    -- the branch is put back
    exact ⟨hcreated, hclosed, hsplit, hsaturated⟩
  | @logical side shape f premises hinfers =>
    have hlength : premises.length = (RuleName.logical side shape).numSubgoals := hinfers.length_eq
    have hsplits := state.statistics.applications.splits_increment_logical side shape
    constructor <;>
      simp only [State.advance, State.countApplication, State.nextBranches, Rule.name,
        Tally.sumBy_count_increment, Tally.count_increment, List.length_append, List.length_map,
        reduceCtorEq, if_false] <;>
      omega

theorem AdvancesBy.tallied_balanced (h : AdvancesBy s (.ofProblem s problem) n final) :
    Tallied final ∧ Balanced final := by
  induction h with
  | refl => exact ⟨tallied_ofProblem s problem, balanced_ofProblem s problem⟩
  | snoc _ hstep ih => exact ⟨ih.1.step hstep, ih.2.step hstep⟩

/-! ### The end of a search -/

theorem FailsLast.failedAxioms_eq_zero (h : FailsLast state) (hnot : ¬TopFinished state) :
    state.statistics.failedAxioms = 0 :=
  (h.resolve_right fun hfinished => hnot hfinished.2).failedAxioms

theorem not_topFinished_of_nil (h : state.branches = []) : ¬TopFinished state := by
  rintro ⟨branch, rest, hcons, -⟩
  rw [h] at hcons
  cases hcons

/-- The closing rule has failed on a branch that is finished. -/
theorem FailsLast.failedAxioms_eq_one (h : FailsLast state) (hfinished : TopFinished state) :
    state.statistics.failedAxioms = 1 := by
  -- a branch is finished only if the closing rule was tried on it
  refine (h.resolve_left fun huntried => ?_).1
  obtain ⟨branch, rest, hbranches, hnone⟩ := hfinished
  have hlast := (Sequent.nextRule_eq_none_iff.1 hnone).2
  exact huntried.last branch (by simp [hbranches]) hlast

/-- The result tells what is open, and how often the closing rule has failed. -/
theorem Ends.leavesOpen {limit : Option Nat} {result : Run} (h : Ends limit final result)
    (hfails : FailsLast final) (hsaturated : final.statistics.saturatedBranches = 0)
    (hmore : result.result = .gaveUp → ∃ next, Advances s final next) :
    result.result.LeavesOpen result.remaining ∧
      result.statistics.failedAxioms = result.result.saturatedLeaves ∧
      result.statistics.saturatedBranches = result.result.saturatedLeaves := by
  cases h with
  | proof hbranches =>
    have hnone := hfails.failedAxioms_eq_zero (not_topFinished_of_nil hbranches)
    exact ⟨List.map_eq_nil_iff.2 hbranches, hnone, hsaturated⟩
  | @saturated branch rest hbranches hrule =>
    refine ⟨?_, hfails.failedAxioms_eq_one ⟨branch, rest, hbranches, hrule⟩,
      congrArg (· + 1) hsaturated⟩
    show (final.branches.map (·.goal)).head? = some branch.goal
    rw [hbranches]
    rfl
  | gaveUp =>
    obtain ⟨next, hstep⟩ := hmore rfl
    obtain ⟨branch, rest, hbranches, -⟩ := hstep.exists_moves
    have hnot : ¬TopFinished final := fun hfinished => hfinished.not_advances hstep
    refine ⟨fun hnil => ?_, hfails.failedAxioms_eq_zero hnot, hsaturated⟩
    rw [List.map_eq_nil_iff.1 hnil] at hbranches
    cases hbranches

/-- A proof consists of the rules on record, and nothing is open. -/
theorem Ends.rules_eq {limit : Option Nat} {result : Run} (h : Ends limit final result)
    {rules : List Rule} (hproof : result.result = .proof rules) :
    final.branches = [] ∧ final.rules = rules := by
  cases h with
  | proof hbranches => exact ⟨hbranches, Result.proof.inj hproof⟩
  | saturated => cases hproof
  | gaveUp => cases hproof

/-- **When nothing is open**, the record is counted exactly. -/
theorem AdvancesBy.counts_of_nil (h : AdvancesBy s (.ofProblem s problem) n final)
    (hnil : final.branches = []) :
    final.statistics.createdGoals = final.rules.length ∧
      final.statistics.ruleApplications = final.rules.length ∧
      (∀ name, final.statistics.applications.count name = final.rules.countP (·.name = name)) ∧
      final.statistics.closedBranches = 1 + final.statistics.applications.splits := by
  obtain ⟨⟨htotal, hrecorded⟩, hbalanced⟩ := h.tallied_balanced
  have hfailed := h.failsLast.failedAxioms_eq_zero (not_topFinished_of_nil hnil)
  have happlications : final.statistics.ruleApplications = final.rules.length := by
    rw [h.counted.steps, State.rules, List.length_map, List.length_reverse]
  have hcreated := hbalanced.created
  have hsplit := hbalanced.split
  rw [hnil, List.length_nil, Nat.add_zero] at hcreated hsplit
  refine ⟨?_, happlications, fun name => ?_, hsplit⟩
  · rw [hcreated, htotal, ← happlications, Statistics.ruleApplications, hfailed, Nat.add_zero]
  · rw [hrecorded, hfailed, ite_self, Nat.add_zero]

/-- **The counters of a search balance**, with any limit or none.  The branches that are still open
when the search ends are counted with the saturated or abandoned one.

* Goals that were created are still open or were taken away, one by each application of a rule.
* Branches are closed by applications of the closing rule.
* Each application of a rule with two subgoals adds a branch to the one with which the search has
  begun.
* The closing rule has failed once if the search ends with a saturated branch, and otherwise never.
* After a proof the counters say what its rules are, how often each of them stands in it, and that
  nothing is open. -/
theorem search_counters_balance (hs : s.Reachable) (hproblem : s.OwnsSequent problem)
    (limit : Option Nat) :
    ∃ run, s.search limit problem = .ok run ∧
      let counters := run.statistics
      let applied := sumBy counters.applications.count RuleName.all
      run.result.LeavesOpen run.remaining ∧
        counters.createdGoals = applied + run.remaining.length ∧
        counters.closedBranches = counters.applications.count .ax ∧
        counters.closedBranches + run.remaining.length = 1 + counters.applications.splits ∧
        counters.failedAxioms = run.result.saturatedLeaves ∧
        counters.saturatedBranches = run.result.saturatedLeaves ∧
        ∀ rules, run.result = .proof rules →
          counters.createdGoals = rules.length ∧ counters.ruleApplications = rules.length ∧
          (∀ name, counters.applications.count name = rules.countP (·.name = name)) ∧
          counters.closedBranches = 1 + counters.applications.splits := by
  obtain ⟨n, final, run, hpath, hrun, hends, hmore⟩ :=
    exists_path_of_search hs.wellFormed hproblem limit
  obtain ⟨htallied, hbalanced⟩ := hpath.tallied_balanced
  obtain ⟨hopen, hfailed, hsaturated⟩ :=
    hends.leavesOpen hpath.failsLast hbalanced.saturated hmore
  obtain ⟨saturated, hstatistics⟩ := hends.exists_statistics_eq
  have hremaining : run.remaining.length = final.branches.length := by
    rw [hends.remaining_eq, List.length_map]
  refine ⟨run, hrun, hopen, ?_, ?_, ?_, hfailed, hsaturated, fun rules hproof => ?_⟩
  · rw [hstatistics, hremaining]
    exact hbalanced.created
  · rw [hstatistics]
    exact hbalanced.closed
  · rw [hstatistics, hremaining]
    exact hbalanced.split
  · obtain ⟨hnil, rfl⟩ := hends.rules_eq hproof
    rw [hstatistics]
    exact hpath.counts_of_nil hnil

/-- The search for `p | q => p | q` ends with a proof of three logical rules and two closing rules.
That for `p | q => p & q` splits twice, closes one branch and fails on the next, with one more
branch below it. -/
theorem search_counters_balance_on_disjunctions :
    let built (op : BinOp) := SequentExpr.build (.ofPolicy {})
      ⟨[.binary .or (.atom "p") (.atom "q")], [.binary op (.atom "p") (.atom "q")]⟩
    let split : Rule := .logical .left .or ⟨4, .compound (.bin .or)⟩
    let join : Rule := .logical .right .or ⟨4, .compound (.bin .or)⟩
    (∃ run, (built .or).2.search none (built .or).1 = .ok run ∧
      run.result = .proof [split, join, .ax, join, .ax] ∧ run.statistics.createdGoals = 5 ∧
      run.statistics.ruleApplications = 5 ∧ run.statistics.applications.count .ax = 2 ∧
      run.statistics.closedBranches = 2 ∧ run.statistics.failedAxioms = 0) ∧
    ∃ run, (built .and).2.search none (built .and).1 = .ok run ∧
      run.result = .saturated (.ofLists [⟨2, .atomic⟩] [⟨3, .atomic⟩]) ∧
      run.remaining.length = 2 ∧ run.statistics.applications.splits = 2 ∧
      run.statistics.closedBranches = 1 ∧ run.statistics.failedAxioms = 1 := by
  intro built split join
  have hbuilt : ∀ op, (built op).2.Reachable ∧ (built op).2.OwnsSequent (built op).1 :=
    fun op => Store.reachable_build_sequent {} _
  constructor
  · obtain ⟨run, hrun, -, -, hclosed, -, hfailed, -, hproof⟩ :=
      search_counters_balance (hbuilt .or).1 (hbuilt .or).2 none
    have hresult : ((built .or).2.search none (built .or).1).toOption.map (·.result) =
        some (.proof [split, join, .ax, join, .ax]) := by decide +kernel
    rw [hrun] at hresult
    have hrules : run.result = .proof [split, join, .ax, join, .ax] := Option.some.inj hresult
    obtain ⟨hcreated, happlications, hcount, -⟩ := hproof _ hrules
    rw [hrules] at hfailed
    exact ⟨run, hrun, hrules, hcreated, happlications, hcount .ax, hclosed.trans (hcount .ax),
      hfailed⟩
  · obtain ⟨run, hrun, -, -, -, hsplit, hfailed, -, -⟩ :=
      search_counters_balance (hbuilt .and).1 (hbuilt .and).2 none
    have hresult : ((built .and).2.search none (built .and).1).toOption.map (fun run =>
        (run.result, run.remaining.length, run.statistics.applications.splits)) =
          some (.saturated (.ofLists [⟨2, .atomic⟩] [⟨3, .atomic⟩]), 2, 2) := by decide +kernel
    rw [hrun] at hresult
    obtain ⟨hleaf, hremaining, hsplits⟩ : run.result = _ ∧ run.remaining.length = 2 ∧
        run.statistics.applications.splits = 2 := by
      simpa [Except.toOption] using hresult
    rw [hleaf] at hfailed
    exact ⟨run, hrun, hleaf, hremaining, hsplits, by omega, hfailed⟩

end Search

end SequentCalculus
