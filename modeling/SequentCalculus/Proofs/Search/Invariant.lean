import SequentCalculus.Proofs.Calculus
import SequentCalculus.Search

/-!
# What a search keeps

A search goes from state to state by `State.advance` until it ends, in one of the three ways that
`Ends` lists.  The run lemma `run_of_invariant` takes care of the loop once and for all: if a
property of states lets the strategy's rule be applied and holds again afterwards, then the search
comes to an end, without a fault, in a state with this property.

The property used here is `Faithful`: the problem holds under an assignment if and only if all open
branches do.  A step keeps it in both directions, since every rule is sound and invertible
(`Faithful.step`), and so it settles the problem when the search ends (`search_settles`): no branch
is open, or one of them can be seen to fail.
-/

namespace SequentCalculus.Search

/-! ### Runs -/

/-- How a search with this limit comes to its end in the state `final`. -/
inductive Ends (limit : Option Nat) (final : State) : Run → Prop
  | proof (hbranches : final.branches = []) :
      Ends limit final (final.finish (.proof (final.steps.reverse.map (·.rule))))
  | saturated {branch : Branch} {rest : List Branch} (hbranches : final.branches = branch :: rest)
      (hrule : branch.goal.nextRule branch.last = none) :
      Ends limit final (final.finishSaturated branch)
  | gaveUp (hlimit : limit ≠ none) : Ends limit final (final.finish .gaveUp)

/-- Only a search that gives up has looked at its limit. -/
theorem Ends.of_limit {limit limit' : Option Nat} {final : State} {result : Run}
    (h : Ends limit final result) (hlimit : limit ≠ none → limit' ≠ none) :
    Ends limit' final result := by
  cases h with
  | proof hbranches => exact .proof hbranches
  | saturated hbranches hrule => exact .saturated hbranches hrule
  | gaveUp hsome => exact .gaveUp (hlimit hsome)

/-- **The run lemma**: what every step can start from and keeps, holds when the search ends, and the
search does end. -/
theorem run_of_invariant {s : Store} {P : State → Prop}
    (hstep : ∀ {state : State} {branch : Branch} {rest : List Branch} {rule : Rule}, P state →
      state.branches = branch :: rest → branch.goal.nextRule branch.last = some rule →
      ∃ application, rule.apply s branch.goal = .ok application ∧
        P (state.advance branch rest rule application))
    (limit : Option Nat) {state : State} (h : P state) :
    ∃ final result, run s limit state = .ok result ∧ P final ∧ Ends limit final result := by
  fun_induction run s limit state with
  | case1 limit state hbranches => exact ⟨state, _, rfl, h, .proof hbranches⟩
  | case2 limit state branch rest hbranches hrule =>
    exact ⟨state, _, rfl, h, .saturated hbranches hrule⟩
  | case3 state branch rest hbranches rule hrule =>
    -- the limit is reached, so there is one
    exact ⟨state, _, rfl, h, .gaveUp (by simp)⟩
  | case4 limit state branch rest hbranches rule hrule hlimit fault happly =>
    -- the rule of the strategy can be applied
    obtain ⟨application, hok, -⟩ := hstep h hbranches hrule
    rw [hok] at happly
    cases happly
  | case5 limit state branch rest hbranches rule hrule hlimit application happly hlt ih =>
    obtain ⟨application', hok, hnext⟩ := hstep h hbranches hrule
    rw [happly] at hok
    cases hok
    obtain ⟨final, result, hrun, hfinal, hends⟩ := ih hnext
    exact ⟨final, result, hrun, hfinal, hends.of_limit (by simp)⟩

/-! ### Faithful states -/

/-- What a search keeps of each open branch. -/
structure Branch.Sound (s : Store) (branch : Branch) : Prop where
  owns : s.OwnsSequent branch.goal
  /-- The closing rule was tried and failed. -/
  failed : branch.last = .closing → branch.goal.isAxiom = false

/-- **The invariant of a search**: the problem stands and falls with the open branches. -/
structure Faithful (s : Store) (problem : Sequent) (state : State) : Prop where
  sound : ∀ branch ∈ state.branches, branch.Sound s
  holds_iff : ∀ α : Assignment, problem.Holds (s.eval α) ↔
    ∀ branch ∈ state.branches, branch.goal.Holds (s.eval α)

theorem faithful_ofProblem {s : Store} {problem : Sequent} (h : s.OwnsSequent problem) :
    Faithful s problem (.ofProblem s problem) where
  sound := by
    intro branch hbranch
    obtain rfl : branch = ⟨problem, .start, 0⟩ := by simpa [State.ofProblem] using hbranch
    exact ⟨h, by simp⟩
  holds_iff := by simp [State.ofProblem]

section Step

variable {s : Store} {problem : Sequent} {state : State} {branch : Branch} {rest : List Branch}

theorem Faithful.logical (hs : s.WellFormed) (h : Faithful s problem state)
    (hbranches : state.branches = branch :: rest) {side : Side} {shape : Shape} {f : Formula}
    {premises : List Sequent} (hinfers : Infers s (.logical side shape f) branch.goal premises) :
    Faithful s problem
      (state.advance branch rest (.logical side shape f) (.subgoals premises)) := by
  have hnext : (state.advance branch rest (.logical side shape f) (.subgoals premises)).branches =
      premises.map (⟨·, .logical, branch.depth + 1⟩) ++ rest := rfl
  have hsound := h.sound
  rw [hbranches, List.forall_mem_cons] at hsound
  refine ⟨?_, fun α => ?_⟩
  · rw [hnext, List.forall_mem_append, List.forall_mem_map]
    refine ⟨fun premise hpremise => ⟨?_, by simp⟩, hsound.2⟩
    exact hinfers.owns hs hsound.1.owns premise hpremise
  · rw [h.holds_iff α, hbranches, hnext, List.forall_mem_cons, List.forall_mem_append,
      List.forall_mem_map, hinfers.holds_iff α]

theorem Faithful.closed (h : Faithful s problem state) (hbranches : state.branches = branch :: rest)
    (hax : branch.goal.isAxiom = true) :
    Faithful s problem (state.advance branch rest .ax .closed) := by
  have hnext : (state.advance branch rest .ax .closed).branches = rest := rfl
  have hsound := h.sound
  rw [hbranches, List.forall_mem_cons] at hsound
  refine ⟨hnext ▸ hsound.2, fun α => ?_⟩
  rw [h.holds_iff α, hbranches, hnext, List.forall_mem_cons]
  exact and_iff_right (Sequent.holds_of_isAxiom s α hax)

theorem Faithful.failed (h : Faithful s problem state) (hbranches : state.branches = branch :: rest)
    (hax : branch.goal.isAxiom = false) :
    Faithful s problem (state.advance branch rest .ax .failed) := by
  have hnext : (state.advance branch rest .ax .failed).branches =
      ⟨branch.goal, .closing, branch.depth + 1⟩ :: rest := rfl
  have hsound := h.sound
  rw [hbranches, List.forall_mem_cons] at hsound
  refine ⟨?_, fun α => ?_⟩
  · rw [hnext, List.forall_mem_cons]
    exact ⟨⟨hsound.1.owns, fun _ => hax⟩, hsound.2⟩
  · rw [h.holds_iff α, hbranches, hnext, List.forall_mem_cons, List.forall_mem_cons]

/-- **A step keeps the search faithful**, and no step ends in a fault. -/
theorem Faithful.step (hs : s.WellFormed) {rule : Rule} (h : Faithful s problem state)
    (hbranches : state.branches = branch :: rest)
    (hrule : branch.goal.nextRule branch.last = some rule) :
    ∃ application, rule.apply s branch.goal = .ok application ∧
      Faithful s problem (state.advance branch rest rule application) := by
  rcases branch.goal.nextRule_cases branch.last with
    ⟨side, shape, f, hnext, hmem, hkind⟩ | ⟨-, -, hnext⟩ | ⟨-, -, hnext⟩
  · rw [hrule] at hnext
    cases hnext
    have howns : s.Owns f := (h.sound branch (by simp [hbranches])).owns side f hmem
    obtain ⟨premises, hinfers⟩ := exists_infers hs howns hmem hkind
    exact ⟨.subgoals premises, Rule.apply_eq_subgoals_iff.2 (subgoals_eq_ok_iff.2 hinfers),
      h.logical hs hbranches hinfers⟩
  · rw [hrule] at hnext
    cases hnext
    cases hax : branch.goal.isAxiom with
    | true => exact ⟨.closed, by simp [Rule.apply, hax], h.closed hbranches hax⟩
    | false => exact ⟨.failed, by simp [Rule.apply, hax], h.failed hbranches hax⟩
  · rw [hrule] at hnext
    cases hnext

end Step

/-! ### The end of a search -/

/-- What the result of a search says about its problem. -/
inductive Settles (s : Store) (problem : Sequent) (limit : Option Nat) : Result → Prop
  /-- A proof is found only of what holds. -/
  | proof (rules : List Rule) (h : ∀ α : Assignment, problem.Holds (s.eval α)) :
      Settles s problem limit (.proof rules)
  /-- A leaf that cannot be closed fails, and the problem fails wherever the leaf does. -/
  | saturated (leaf : Sequent) (howns : s.OwnsSequent leaf) (hsat : leaf.Saturated)
      (hax : leaf.isAxiom = false)
      (h : ∀ α : Assignment, leaf.Fails (s.eval α) → problem.Fails (s.eval α)) :
      Settles s problem limit (.saturated leaf)
  | gaveUp (h : limit ≠ none) : Settles s problem limit .gaveUp

/-- **A search settles its problem.** -/
theorem search_settles {s : Store} (hs : s.WellFormed) {problem : Sequent}
    (hproblem : s.OwnsSequent problem) (limit : Option Nat) :
    ∃ run, s.search limit problem = .ok run ∧ Settles s problem limit run.result := by
  obtain ⟨final, run, hrun, hfinal, hends⟩ :=
    run_of_invariant (fun h hbranches hrule => h.step hs hbranches hrule) limit
      (faithful_ofProblem hproblem)
  refine ⟨run, hrun, ?_⟩
  cases hends with
  | proof hbranches =>
    refine .proof _ fun α => (hfinal.holds_iff α).2 ?_
    rw [hbranches]
    simp
  | @saturated branch rest hbranches hrule =>
    have hmem : branch ∈ final.branches := by simp [hbranches]
    have hsound := hfinal.sound branch hmem
    rcases branch.goal.nextRule_cases branch.last with
      ⟨_, _, _, hnext, -, -⟩ | ⟨-, -, hnext⟩ | ⟨hsat, hlast, -⟩
    -- the first two cases have a rule to apply
    · rw [hrule] at hnext
      cases hnext
    · rw [hrule] at hnext
      cases hnext
    · refine .saturated branch.goal hsound.owns hsat (hsound.failed hlast) fun α hleaf => ?_
      rw [← Sequent.not_holds_iff] at hleaf ⊢
      exact fun hholds => hleaf ((hfinal.holds_iff α).1 hholds branch hmem)
  | gaveUp hlimit => exact .gaveUp hlimit

end SequentCalculus.Search
