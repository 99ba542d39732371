import SequentCalculus.Proofs.Replay
import SequentCalculus.Proofs.Search.Invariant

/-!
# Proofs that are found can be replayed

Search and replay are two loops over a stack of goals that know nothing of each other.  A search
keeps more than a replay needs, the last step and the depth of every branch, and it puts a goal
back when the closing rule fails on it.

The two are compared by `InStep`: after the rules applied so far, a replay stands before the open
branches of the search, so that whatever comes next is accepted from the problem exactly if it is
accepted from the branches.  Every step keeps this up but one (`InStep.step`).  When the closing
rule fails, a rule is on record that no replay accepts; but then no rule is left for the topmost
branch (`TopFinished`), and the search ends without a proof.  So the rules of a proof that is found
are accepted, and what a replay reports of an accepted list are its rules, each with the goal and
the subgoals that it belongs to (`Replay.reports_of_accepted`).
-/

namespace SequentCalculus

/-! ### What is reported -/

/-- The rule of the inference leads from its goal to its subgoals: it closes the goal, which is an
axiom, or the subgoals are its premises. -/
def Inference.Justified (s : Store) (inference : Inference) : Prop :=
  (inference.rule = .ax ∧ inference.goal.isAxiom = true ∧ inference.subgoals = []) ∨
    Infers s inference.rule inference.goal inference.subgoals

namespace Replay

variable {s : Store} {goal : Sequent} {goals premises : List Sequent} {rule : Rule}
  {rules : List Rule}

theorem ofGoals_ax (h : goal.isAxiom = true) :
    ofGoals s (goal :: goals) (.ax :: rules) = (ofGoals s goals rules).cons ⟨goal, .ax, []⟩ := by
  rw [ofGoals, Rule.apply_eq_closed_iff.2 ⟨rfl, h⟩]

theorem ofGoals_infer (h : Infers s rule goal premises) :
    ofGoals s (goal :: goals) (rule :: rules) =
      (ofGoals s (premises ++ goals) rules).cons ⟨goal, rule, premises⟩ := by
  rw [ofGoals, Rule.apply_eq_subgoals_iff.2 (subgoals_eq_ok_iff.2 h)]

/-- **A replay reports the rules that it accepts**, in order and each with its goal and subgoals. -/
theorem reports_of_accepted (h : (ofGoals s goals rules).fault = none) :
    (ofGoals s goals rules).inferences.map (·.rule) = rules ∧
      ∀ inference ∈ (ofGoals s goals rules).inferences, inference.Justified s := by
  induction rules generalizing goals with
  | nil =>
    cases goals with
    | nil => exact ⟨rfl, by simp [ofGoals]⟩
    | cons goal goals => cases h
  | cons rule rules ih =>
    cases goals with
    | nil => cases h
    | cons goal goals =>
      rcases cases_of_fault_eq_none h with ⟨rfl, hax, hrest⟩ | ⟨premises, hinfers, hrest⟩
      · obtain ⟨hrules, hjustified⟩ := ih hrest
        rw [ofGoals_ax hax]
        refine ⟨congrArg (Rule.ax :: ·) hrules, ?_⟩
        exact List.forall_mem_cons.2 ⟨.inl ⟨rfl, hax, rfl⟩, hjustified⟩
      · obtain ⟨hrules, hjustified⟩ := ih hrest
        rw [ofGoals_infer hinfers]
        refine ⟨congrArg (rule :: ·) hrules, ?_⟩
        exact List.forall_mem_cons.2 ⟨.inr hinfers, hjustified⟩

end Replay

/-! ### Keeping in step -/

namespace Search

/-- The rules applied so far take a replay from the problem to the open branches, whatever rules
come after them. -/
def InStep (s : Store) (problem : Sequent) (state : State) : Prop :=
  ∀ rules : List Rule,
    (s.replay problem (state.steps.reverse.map (·.rule) ++ rules)).fault =
      (Replay.ofGoals s (state.branches.map (·.goal)) rules).fault

/-- No rule is left for the topmost branch, so that the search is about to end without a proof. -/
def TopFinished (state : State) : Prop :=
  ∃ branch rest, state.branches = branch :: rest ∧ branch.goal.nextRule branch.last = none

section Step

variable {s : Store} {problem : Sequent} {state : State} {branch : Branch} {rest : List Branch}

theorem inStep_ofProblem (s : Store) (problem : Sequent) :
    InStep s problem (.ofProblem s problem) :=
  fun _ => rfl

/-- The rule of a step is the first of the rules that come after the earlier ones. -/
theorem InStep.advance_iff (h : InStep s problem state)
    (hbranches : state.branches = branch :: rest) (rule : Rule) (application : Application) :
    InStep s problem (state.advance branch rest rule application) ↔
      ∀ rules : List Rule,
        (Replay.ofGoals s (branch.goal :: rest.map (·.goal)) (rule :: rules)).fault =
          (Replay.ofGoals s
            ((State.nextBranches branch rest rule application).map (·.goal)) rules).fault := by
  refine forall_congr' fun rules => ?_
  have hsteps : (state.advance branch rest rule application).steps.reverse.map (·.rule) ++ rules =
      state.steps.reverse.map (·.rule) ++ rule :: rules := by
    simp [State.advance]
  rw [hsteps, h (rule :: rules), hbranches]
  rfl

/-- A saturated branch on which the closing rule has failed is finished. -/
theorem topFinished_of_failed {rule : Rule}
    (hrule : branch.goal.nextRule branch.last = some rule)
    (happly : rule.apply s branch.goal = .ok .failed) :
    TopFinished (state.advance branch rest rule .failed) := by
  obtain ⟨rfl, -⟩ := Rule.apply_eq_failed_iff.1 happly
  exact ⟨_, rest, rfl, Sequent.nextRule_closing_eq_none hrule⟩

/-- **A step keeps search and replay in step**, unless it is the last one before the search ends
without a proof. -/
theorem InStep.step (h : InStep s problem state) (hbranches : state.branches = branch :: rest)
    {rule : Rule} {application : Application}
    (hrule : branch.goal.nextRule branch.last = some rule)
    (happly : rule.apply s branch.goal = .ok application) :
    InStep s problem (state.advance branch rest rule application) ∨
      TopFinished (state.advance branch rest rule application) := by
  cases application with
  | closed =>
    obtain ⟨rfl, hax⟩ := Rule.apply_eq_closed_iff.1 happly
    exact .inl ((h.advance_iff hbranches _ _).2 fun _ => Replay.fault_ofGoals_ax hax)
  | failed => exact .inr (topFinished_of_failed hrule happly)
  | subgoals premises =>
    have hinfers := subgoals_eq_ok_iff.1 (Rule.apply_eq_subgoals_iff.1 happly)
    refine .inl ((h.advance_iff hbranches _ _).2 fun rules => ?_)
    rw [Replay.fault_ofGoals_infer hinfers, State.nextBranches, List.map_append, List.map_map]
    congr 3
    exact (List.map_id premises).symm

/-- What a search keeps of its record.  It is faithful as well, which is why the rule of the
strategy can be applied. -/
def Recorded (s : Store) (problem : Sequent) (state : State) : Prop :=
  Faithful s problem state ∧ (InStep s problem state ∨ TopFinished state)

theorem Recorded.step (hs : s.WellFormed) (h : Recorded s problem state)
    (hbranches : state.branches = branch :: rest) {rule : Rule}
    (hrule : branch.goal.nextRule branch.last = some rule) :
    ∃ application, rule.apply s branch.goal = .ok application ∧
      Recorded s problem (state.advance branch rest rule application) := by
  obtain ⟨hfaithful, hrecord⟩ := h
  obtain ⟨application, happly, hnext⟩ := hfaithful.step hs hbranches hrule
  refine ⟨application, happly, hnext, ?_⟩
  rcases hrecord with hinStep | ⟨top, others, htop, hnone⟩
  · exact hinStep.step hbranches hrule happly
  · -- the topmost branch is not finished, since there is a rule for it
    rw [hbranches] at htop
    cases htop
    rw [hrule] at hnone
    cases hnone

end Step

/-- **What a search proves, a replay accepts.** -/
theorem fault_replay_of_search {s : Store} (hs : s.WellFormed) {problem : Sequent}
    (hproblem : s.OwnsSequent problem) {limit : Option Nat} {run : Run}
    (hrun : s.search limit problem = .ok run) {rules : List Rule}
    (hproof : run.result = .proof rules) : (s.replay problem rules).fault = none := by
  obtain ⟨final, run', hrun', ⟨-, hfinal⟩, hends⟩ :=
    run_of_invariant (fun h hbranches hrule => Recorded.step hs h hbranches hrule) limit
      ⟨faithful_ofProblem hproblem, .inl (inStep_ofProblem s problem)⟩
  obtain rfl : run = run' := Except.ok.inj (hrun.symm.trans hrun')
  cases hends with
  | proof hbranches =>
    obtain rfl : final.steps.reverse.map (·.rule) = rules := Result.proof.inj hproof
    rcases hfinal with hinStep | ⟨branch, rest, hbranches', -⟩
    · -- no branch is open, and no rule comes after those of the proof
      have hnil := hinStep []
      rw [List.append_nil, hbranches] at hnil
      exact hnil
    · rw [hbranches] at hbranches'
      cases hbranches'
  | saturated => cases hproof
  | gaveUp => cases hproof

/-- **Search and replay agree**: the proof that a search returns, with or without a limit, is
accepted by a replay on the same problem, which reports exactly its rules, in order.  Each of them
is reported with the goal and the subgoals that it belongs to, the closing rule with the axioms. -/
theorem found_proof_replays {s : Store} (hs : s.Reachable) {problem : Sequent}
    (hproblem : s.OwnsSequent problem) {limit : Option Nat} {run : Run}
    (hrun : s.search limit problem = .ok run) {rules : List Rule}
    (hproof : run.result = .proof rules) :
    (s.replay problem rules).fault = none ∧
      (s.replay problem rules).inferences.map (·.rule) = rules ∧
      ∀ inference ∈ (s.replay problem rules).inferences, inference.Justified s := by
  have haccepted := fault_replay_of_search hs.wellFormed hproblem hrun hproof
  exact ⟨haccepted, Replay.reports_of_accepted haccepted⟩

/-- The proof of `p | q => q | p` that is found within six steps, with its two branches. -/
theorem found_proof_replays_swapped_disjunction :
    let problem : SequentExpr :=
      ⟨[.binary .or (.atom "p") (.atom "q")], [.binary .or (.atom "q") (.atom "p")]⟩
    let built := problem.build (.ofPolicy {})
    let split : Rule := .logical .left .or ⟨4, .compound (.bin .or)⟩
    let join : Rule := .logical .right .or ⟨5, .compound (.bin .or)⟩
    let rules := [split, join, .ax, join, .ax]
    ∃ run, built.2.search (some 6) built.1 = .ok run ∧ run.result = .proof rules ∧
      (built.2.replay built.1 rules).fault = none ∧
      (built.2.replay built.1 rules).inferences.map (·.rule) = rules := by
  intro problem built split join rules
  have hpolicy := Store.reachable_ofPolicy {}
  obtain ⟨hgrows, howns⟩ := Store.grows_build_sequent hpolicy.wellFormed problem
  have hresult : (built.2.search (some 6) built.1).toOption.map (·.result) =
      some (.proof rules) := by decide +kernel
  cases hrun : built.2.search (some 6) built.1 with
  | error fault =>
    rw [hrun] at hresult
    cases hresult
  | ok run =>
    have hproof : run.result = .proof rules := by simpa [hrun, Except.toOption] using hresult
    obtain ⟨haccepted, hreported, -⟩ :=
      found_proof_replays (hpolicy.grow hgrows) howns hrun hproof
    exact ⟨run, rfl, hproof, haccepted, hreported⟩

end Search

end SequentCalculus
