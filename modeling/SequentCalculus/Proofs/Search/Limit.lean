import SequentCalculus.Proofs.Search.Replay

/-!
# The limit on the steps of a search

A search asks the strategy first and looks at its limit afterwards, so that a branch for which no
rule is left is reported even if no further step is allowed.  What a limit can do is therefore
little: it cuts a search off, and changes nothing before that.

The argument is about paths.  `AdvancesBy s start n final` says that `n` steps lead from one state
to another, and a search that starts from the one does what it does from the other with a limit that
is lower by `n` (`AdvancesBy.run_eq`).  The search without a limit takes a path to a state where it
ends (`exists_advancesBy_of_search`).  A lower limit ends within this path, and there is a step to
be taken at that place; any other limit does not come to bear.

The steps are counted by the statistics: every step is one rule application, and of all steps only
the last can be a closing rule that fails (`Counted`).
-/

namespace SequentCalculus

/-- Whether a rule was applied before or not, one application is added. -/
theorem Tally.total_increment (tally : Tally) (name : RuleName) :
    (tally.increment name).total = tally.total + 1 := by
  unfold Tally.total
  induction tally with
  | nil => rfl
  | cons entry rest ih =>
    obtain ⟨other, n⟩ := entry
    rw [increment]
    split
    · simp only [sumBy_cons]
      omega
    · simp only [sumBy_cons, ih]
      omega

namespace Search

variable {s : Store} {problem : Sequent} {start state next final : State} {n : Nat}

/-! ### Paths -/

/-- One step of a search: the rule of the strategy is applied to the topmost branch. -/
inductive Advances (s : Store) (state : State) : State → Prop
  | step {branch : Branch} {rest : List Branch} {rule : Rule} {application : Application}
      (hbranches : state.branches = branch :: rest)
      (hrule : branch.goal.nextRule branch.last = some rule)
      (happly : rule.apply s branch.goal = .ok application) :
      Advances s state (state.advance branch rest rule application)

/-- A number of steps, one after the other. -/
inductive AdvancesBy (s : Store) (start : State) : Nat → State → Prop
  | refl : AdvancesBy s start 0 start
  | snoc {n : Nat} {state next : State} (h : AdvancesBy s start n state)
      (hstep : Advances s state next) : AdvancesBy s start (n + 1) next

/-- A path can be taken after another one. -/
theorem AdvancesBy.trans {m : Nat} (h : AdvancesBy s start m state)
    (hmore : AdvancesBy s state n final) : AdvancesBy s start (m + n) final := by
  induction hmore with
  | refl => exact h
  | snoc _ hstep ih => exact ih.snoc hstep

/-- A path can be cut anywhere. -/
theorem AdvancesBy.split {m : Nat} (h : AdvancesBy s start (m + n) final) :
    ∃ state, AdvancesBy s start m state ∧ AdvancesBy s state n final := by
  induction n generalizing final with
  | zero => exact ⟨final, h, .refl⟩
  | succ n ih =>
    cases h with
    | snoc h hstep =>
      obtain ⟨state, hfirst, hsecond⟩ := ih h
      exact ⟨state, hfirst, hsecond.snoc hstep⟩

/-- There is a first step on a path that is not empty. -/
theorem AdvancesBy.exists_advances (h : AdvancesBy s start (n + 1) final) :
    ∃ next, Advances s start next := by
  rw [Nat.add_comm] at h
  obtain ⟨next, hfirst, -⟩ := h.split
  cases hfirst with
  | snoc hstay hstep =>
    cases hstay
    exact ⟨next, hstep⟩

/-- What was recorded before stays at the bottom of the record. -/
theorem AdvancesBy.exists_steps (h : AdvancesBy s start n final) :
    ∃ made, made.length = n ∧ final.steps = made ++ start.steps := by
  induction h with
  | refl => exact ⟨[], rfl, rfl⟩
  | snoc _ hstep ih =>
    obtain ⟨made, hlength, hsteps⟩ := ih
    cases hstep with
    | @step branch rest rule application =>
      refine ⟨⟨rule, branch.depth + 1⟩ :: made, congrArg (· + 1) hlength, ?_⟩
      rw [State.advance, hsteps, List.cons_append]

/-! ### Searching along a path -/

/-- A step takes one off the limit. -/
theorem Advances.run_eq (h : Advances s state next) (limit : Option Nat) :
    run s (limit.map (· + 1)) state = run s limit next := by
  cases h with
  | step hbranches hrule happly =>
    have hlimit : limit.map (· + 1) ≠ some 0 := by cases limit <;> simp
    have hless : (limit.map (· + 1)).map (· - 1) = limit := by cases limit <;> simp
    rw [run_eq_advance hbranches hrule hlimit happly, hless]

/-- **A path takes its length off the limit.** -/
theorem AdvancesBy.run_eq (h : AdvancesBy s start n final) (limit : Option Nat) :
    run s (limit.map (· + n)) start = run s limit final := by
  induction h generalizing limit with
  | refl => cases limit <;> rfl
  | @snoc n _ _ _ hstep ih =>
    have hsplit : limit.map (· + (n + 1)) = (limit.map (· + 1)).map (· + n) := by
      cases limit with
      | none => rfl
      | some limit => simp [Nat.add_comm, Nat.add_left_comm]
    rw [hsplit, ih, hstep.run_eq]

/-- Where the search ends without a limit, it ends with any limit. -/
theorem Ends.run_eq {result : Run} (h : Ends none final result) (limit : Option Nat) :
    run s limit final = .ok result := by
  cases h with
  | proof hbranches => exact run_eq_proof hbranches
  | saturated hbranches hrule => exact run_eq_saturated hbranches hrule
  | gaveUp hlimit => exact absurd rfl hlimit

/-! ### Counting -/

/-- What the counters say about the record: every step is counted once, and no closing rule has
failed unless the search is about to end. -/
structure Counted (state : State) : Prop where
  steps : state.statistics.ruleApplications = state.steps.length
  failed : state.statistics.failedAxioms = 0 ∨ TopFinished state

theorem counted_ofProblem (s : Store) (problem : Sequent) : Counted (.ofProblem s problem) :=
  ⟨rfl, .inl rfl⟩

/-- As long as there is a rule for the topmost branch, no closing rule has failed. -/
theorem Counted.failedAxioms_eq_zero (h : Counted state) {branch : Branch} {rest : List Branch}
    {rule : Rule} (hbranches : state.branches = branch :: rest)
    (hrule : branch.goal.nextRule branch.last = some rule) :
    state.statistics.failedAxioms = 0 := by
  rcases h.failed with hzero | ⟨top, others, htop, hnone⟩
  · exact hzero
  · rw [hbranches] at htop
    cases htop
    rw [hrule] at hnone
    cases hnone

/-- **A step keeps the count.** -/
theorem Counted.step (h : Counted state) (hstep : Advances s state next) : Counted next := by
  cases hstep with
  | @step branch rest rule application hbranches hrule happly =>
    have hfailed := h.failedAxioms_eq_zero hbranches hrule
    have hsteps := h.steps
    unfold Statistics.ruleApplications at hsteps
    refine ⟨?_, ?_⟩
    · cases application <;>
        simp only [Statistics.ruleApplications, State.advance, State.countApplication,
          Tally.total_increment, List.length_cons] <;> omega
    · -- only a closing rule that fails changes the second part, and it finishes the branch
      cases application with
      | failed => exact .inr (topFinished_of_failed hrule happly)
      | closed => exact .inl hfailed
      | subgoals => exact .inl hfailed

/-- The count is kept along every path from a problem. -/
theorem AdvancesBy.counted (h : AdvancesBy s (.ofProblem s problem) n final) : Counted final := by
  induction h with
  | refl => exact counted_ofProblem s problem
  | snoc _ hstep ih => exact ih.step hstep

theorem AdvancesBy.ruleApplications (h : AdvancesBy s (.ofProblem s problem) n final) :
    final.statistics.ruleApplications = n := by
  obtain ⟨made, rfl, hsteps⟩ := h.exists_steps
  rw [h.counted.steps, hsteps]
  exact congrArg List.length (List.append_nil made)

/-- Of the counters only the number of saturated branches is touched at the end. -/
theorem Ends.ruleApplications {limit : Option Nat} {result : Run} (h : Ends limit final result) :
    result.statistics.ruleApplications = final.statistics.ruleApplications ∧
      result.steps = final.steps.reverse := by
  cases h <;> exact ⟨rfl, rfl⟩

/-! ### Limits -/

/-- **The search without a limit takes a path** from its problem to a state where it ends. -/
theorem exists_advancesBy_of_search (hs : s.WellFormed) (hproblem : s.OwnsSequent problem) :
    ∃ n final full, AdvancesBy s (.ofProblem s problem) n final ∧ Ends none final full := by
  obtain ⟨final, full, -, ⟨-, n, hpath⟩, hends⟩ :=
    run_of_invariant (P := fun state => Faithful s problem state ∧
        ∃ n, AdvancesBy s (.ofProblem s problem) n state)
      (fun ⟨hfaithful, n, hpath⟩ hbranches hrule => by
        obtain ⟨application, happly, hnext⟩ := hfaithful.step hs hbranches hrule
        exact ⟨application, happly, hnext, n + 1, hpath.snoc (.step hbranches hrule happly)⟩)
      none ⟨faithful_ofProblem hproblem, 0, .refl⟩
  exact ⟨n, final, full, hpath, hends⟩

/-- Without a limit no search gives up. -/
theorem Ends.result_ne_gaveUp {full : Run} (h : Ends none final full) : full.result ≠ .gaveUp := by
  cases h with
  | proof => exact nofun
  | saturated => exact nofun
  | gaveUp hlimit => exact absurd rfl hlimit

/-- A limit that is not below the length of the path makes no difference. -/
theorem AdvancesBy.search_of_le {full : Run} {limit : Nat}
    (h : AdvancesBy s (.ofProblem s problem) n final) (hends : Ends none final full)
    (hle : n ≤ limit) : s.search (some limit) problem = .ok full := by
  have hrun := h.run_eq (some (limit - n))
  rw [Option.map_some, Nat.sub_add_cancel hle] at hrun
  exact hrun.trans (hends.run_eq _)

/-- A lower limit cuts the search off on its path, where there is a step to be taken. -/
theorem AdvancesBy.exists_cut {limit : Nat} (h : AdvancesBy s (.ofProblem s problem) n final)
    (hlt : limit < n) : ∃ state next, AdvancesBy s (.ofProblem s problem) limit state ∧
      Advances s state next ∧ (∃ more, AdvancesBy s state more final) ∧
      s.search (some limit) problem = .ok (state.finish .gaveUp) := by
  -- the path goes on for at least one step after the cut
  obtain ⟨more, rfl⟩ : ∃ more, n = limit + (more + 1) := ⟨n - limit - 1, by omega⟩
  obtain ⟨state, hbefore, hafter⟩ := h.split
  obtain ⟨next, hstep⟩ := hafter.exists_advances
  refine ⟨state, next, hbefore, hstep, ⟨more + 1, hafter⟩, ?_⟩
  have hrun := hbefore.run_eq (some 0)
  rw [Option.map_some, Nat.zero_add] at hrun
  cases hstep with
  | step hbranches hrule => exact hrun.trans (run_eq_gaveUp hbranches hrule)

/-- A lower limit cuts the search off after as many steps, none of which has failed. -/
theorem AdvancesBy.search_of_lt {limit : Nat} (h : AdvancesBy s (.ofProblem s problem) n final)
    (hlt : limit < n) : ∃ limited : Run, s.search (some limit) problem = .ok limited ∧
      limited.result = .gaveUp ∧ limited.statistics.ruleApplications = limit ∧
      limited.statistics.failedAxioms = 0 ∧ limited.steps = final.steps.reverse.take limit := by
  obtain ⟨state, next, hbefore, ⟨hbranches, hrule, -⟩, ⟨more, hafter⟩, hrun⟩ := h.exists_cut hlt
  refine ⟨state.finish .gaveUp, hrun, rfl, hbefore.ruleApplications, ?_, ?_⟩
  · exact hbefore.counted.failedAxioms_eq_zero hbranches hrule
  · -- the steps before the cut are at the bottom of the record at the end
    obtain ⟨made, -, hsteps⟩ := hafter.exists_steps
    have hlength : state.steps.reverse.length = limit := by
      rw [List.length_reverse, ← hbefore.counted.steps, hbefore.ruleApplications]
    rw [hsteps, List.reverse_append, ← hlength, List.take_left]
    rfl

/-- **Every search takes a path** from its problem to a state where it ends.  If it gives up, there
is still a step to be taken. -/
theorem exists_path_of_search (hs : s.WellFormed) (hproblem : s.OwnsSequent problem)
    (limit : Option Nat) :
    ∃ n final result, AdvancesBy s (.ofProblem s problem) n final ∧
      s.search limit problem = .ok result ∧ Ends limit final result ∧
      (result.result = .gaveUp → ∃ next, Advances s final next) := by
  obtain ⟨n, final, full, hpath, hends⟩ := exists_advancesBy_of_search hs hproblem
  have hfull : full.result = .gaveUp → ∃ next, Advances s final next := fun hgaveUp =>
    absurd hgaveUp hends.result_ne_gaveUp
  cases limit with
  | none =>
    have hrun := (hpath.run_eq none).trans (hends.run_eq none)
    exact ⟨n, final, full, hpath, hrun, hends, hfull⟩
  | some limit =>
    -- the limit cuts the path, or the search comes to the end of it
    rcases Nat.lt_or_ge limit n with hlt | hle
    · obtain ⟨state, next, hbefore, hstep, -, hrun⟩ := hpath.exists_cut hlt
      exact ⟨limit, state, _, hbefore, hrun, .gaveUp nofun, fun _ => ⟨next, hstep⟩⟩
    · exact ⟨n, final, full, hpath, hpath.search_of_le hends hle, hends.of_limit nofun, hfull⟩

/-- **A limit only truncates a search.**  The search gives up exactly if the limit is below the
number of steps that it takes without one.  If not, nothing differs, and if so, it has taken as many
steps as the limit allows: the first ones that it takes without a limit, none of them a closing rule
that failed. -/
theorem limit_truncates_search (hs : s.Reachable) (hproblem : s.OwnsSequent problem)
    (limit : Nat) :
    ∃ full limited : Run,
      s.search none problem = .ok full ∧ s.search (some limit) problem = .ok limited ∧
      (limited.result = .gaveUp ↔ limit < full.statistics.ruleApplications) ∧
      (full.statistics.ruleApplications ≤ limit → limited = full) ∧
      (limit < full.statistics.ruleApplications →
        limited.statistics.ruleApplications = limit ∧ limited.statistics.failedAxioms = 0 ∧
        limited.steps = full.steps.take limit) := by
  obtain ⟨n, final, full, hpath, hends⟩ := exists_advancesBy_of_search hs.wellFormed hproblem
  have hfull : s.search none problem = .ok full := (hpath.run_eq none).trans (hends.run_eq none)
  have hcount : full.statistics.ruleApplications = n :=
    hends.ruleApplications.1.trans hpath.ruleApplications
  rcases Nat.lt_or_ge limit n with hlt | hle
  · obtain ⟨limited, hlimited, hgaveUp, htaken, hfailed, hsteps⟩ := hpath.search_of_lt hlt
    refine ⟨full, limited, hfull, hlimited, ?_⟩
    rw [hcount]
    refine ⟨iff_of_true hgaveUp hlt, fun hle => ?_, fun _ => ?_⟩
    · omega
    · exact ⟨htaken, hfailed, hends.ruleApplications.2 ▸ hsteps⟩
  · refine ⟨full, full, hfull, hpath.search_of_le hends hle, ?_⟩
    rw [hcount]
    refine ⟨?_, fun _ => rfl, fun hlt => ?_⟩
    · exact iff_of_false hends.result_ne_gaveUp (by omega)
    · omega

/-- The search for `p | q => p` takes three steps, of which the last is a closing rule that fails.
It is cut off by a limit of two, and not by a limit of three. -/
theorem limit_truncates_search_of_disjunction :
    let problem : SequentExpr := ⟨[.binary .or (.atom "p") (.atom "q")], [.atom "p"]⟩
    let built := problem.build (.ofPolicy {})
    ∃ full below exact : Run, built.2.search none built.1 = .ok full ∧
      built.2.search (some 2) built.1 = .ok below ∧ built.2.search (some 3) built.1 = .ok exact ∧
      full.result = .saturated (.ofLists [⟨3, .atomic⟩] [⟨2, .atomic⟩]) ∧
      below.result = .gaveUp ∧ below.statistics.failedAxioms = 0 ∧
      below.steps.map (·.rule) = [.logical .left .or ⟨4, .compound (.bin .or)⟩, .ax] ∧
      exact = full := by
  intro problem built
  have hpolicy := Store.reachable_ofPolicy {}
  obtain ⟨hgrows, howns⟩ := Store.grows_build_sequent hpolicy.wellFormed problem
  have hreachable : built.2.Reachable := hpolicy.grow hgrows
  obtain ⟨full, below, hfull, hbelow, hgaveUp, -, hcut⟩ :=
    limit_truncates_search hreachable howns 2
  obtain ⟨full', exact, hfull', hexact, -, hsame, -⟩ := limit_truncates_search hreachable howns 3
  obtain rfl : full = full' := Except.ok.inj (hfull.symm.trans hfull')
  have hrun : (built.2.search none built.1).toOption.map (fun run =>
      (run.result, run.statistics.ruleApplications, run.steps.map (·.rule))) =
      some (.saturated (.ofLists [⟨3, .atomic⟩] [⟨2, .atomic⟩]), 3,
        [.logical .left .or ⟨4, .compound (.bin .or)⟩, .ax, .ax]) := by
    decide +kernel
  rw [hfull] at hrun
  obtain ⟨hresult, hcount, hrules⟩ : full.result = _ ∧ full.statistics.ruleApplications = 3 ∧
      full.steps.map (·.rule) = [.logical .left .or ⟨4, .compound (.bin .or)⟩, .ax, .ax] := by
    simpa [Except.toOption] using hrun
  have hlt : 2 < full.statistics.ruleApplications := by omega
  obtain ⟨-, hfailed, hsteps⟩ := hcut hlt
  refine ⟨full, below, exact, hfull, hbelow, hexact, hresult, hgaveUp.2 hlt, hfailed, ?_,
    hsame (by omega)⟩
  rw [hsteps, List.map_take, hrules]
  rfl

end Search

end SequentCalculus
