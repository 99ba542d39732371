import SequentCalculus.Proofs.Search.Step

/-!
# The search as a recursion

The search is a loop over a stack.  What it computes is said by a recursion over sequents (`solve`):
a sequent without a formula to be taken apart is proved by the closing rule or it is saturated, and
any other sequent has the first result of its subgoals that is no proof, or else the rule of the
strategy before the proofs of the subgoals.

The two are compared along paths.  While a goal stands on top of the stack, the loop does not look
at what lies below it.  It therefore takes a path from any state with the goal on top, and at the
end of the path either the goal is gone and the rules of its proof have been recorded, or a
saturated leaf lies on top (`Arrives`).  For a list of goals on top the paths are taken one after
the other, up to the first one that ends with a leaf (`FollowsAll.cons`).

The strategy spells out a tree of sequents below the problem, and a leaf has its place there, given
by the numbers of the branches on the way to it (`LeafAt`).  The leaf that is returned is the first
one that is open, in the order of the branches, and a proof is returned if none is (`Surveys`).
-/

namespace SequentCalculus.Search

variable {s : Store}

/-! ### The recursion -/

/-- One result after another: the first of them that is no proof, or the rules of both proofs. -/
def Result.andThen : Result → Result → Result
  | .proof rules, .proof more => .proof (rules ++ more)
  | .proof _, .saturated leaf => .saturated leaf
  | .proof _, .gaveUp => .gaveUp
  | .saturated leaf, _ => .saturated leaf
  | .gaveUp, _ => .gaveUp

mutual

/-- Decides a sequent by recursion. -/
def solve (s : Store) (goal : Sequent) : Except Fault Result :=
  match goal.nextRule .start with
  | some (.logical side shape f) =>
    match h : (Rule.logical side shape f).subgoals s goal with
    | .error fault => .error fault
    | .ok goals =>
      have := Store.potential_subgoals_lt h
      (solveAll s goals).map (Result.andThen (.proof [.logical side shape f]))
  | _ => .ok (if goal.isAxiom then .proof [.ax] else .saturated goal)
termination_by 2 * s.potential goal

/-- Decides sequents one after the other. -/
def solveAll (s : Store) (goals : List Sequent) : Except Fault Result :=
  match goals with
  | [] => .ok (.proof [])
  | goal :: goals =>
    have := Store.potential_pos (s := s) goal
    match solve s goal with
    | .error fault => .error fault
    | .ok first => (solveAll s goals).map first.andThen
termination_by 2 * sumBy s.potential goals + 1
decreasing_by all_goals simp only [sumBy_cons]; omega

end

section Equations

variable {goal : Sequent} {goals : List Sequent} {result : Result}

theorem solve_eq_of_saturated (h : goal.Saturated) :
    solve s goal = .ok (if goal.isAxiom then .proof [.ax] else .saturated goal) := by
  rw [solve, h.nextRule_eq]
  rfl

theorem solve_eq_ok_iff_of_logical {side : Side} {shape : Shape} {f : Formula}
    (hrule : goal.nextRule .start = some (.logical side shape f)) :
    solve s goal = .ok result ↔
      ∃ goals others, (Rule.logical side shape f).subgoals s goal = .ok goals ∧
        solveAll s goals = .ok others ∧
        result = Result.andThen (.proof [.logical side shape f]) others := by
  rw [solve, hrule]
  dsimp only
  split
  · simp_all
  · rename_i goals hsubgoals
    cases hothers : solveAll s goals <;> simp [hsubgoals, hothers, Except.map, eq_comm]

theorem solveAll_cons_eq_ok_iff :
    solveAll s (goal :: goals) = .ok result ↔
      ∃ first others, solve s goal = .ok first ∧ solveAll s goals = .ok others ∧
        result = first.andThen others := by
  rw [solveAll]
  cases solve s goal <;> cases solveAll s goals <;> simp [Except.map, eq_comm]

end Equations

/-! ### Inductions -/

/-- **Induction over the work on a sequent**: what holds of a goal whenever it holds of all subgoals
of its rules, holds of every goal. -/
theorem subgoal_induction (s : Store) {P : Sequent → Prop}
    (h : ∀ goal, (∀ (rule : Rule) (goals : List Sequent), rule.subgoals s goal = .ok goals →
      ∀ subgoal ∈ goals, P subgoal) → P goal) (goal : Sequent) : P goal := by
  induction hweight : s.weight goal using Nat.strong_induction_on generalizing goal with
  | _ n ih =>
  subst hweight
  refine h goal fun rule goals hsubgoals subgoal hmem => ?_
  exact ih _ (Store.weight_lt_of_subgoals hsubgoals hmem) subgoal rfl

section Induction

variable {P : Sequent → Result → Prop} {Q : List Sequent → Result → Prop}

theorem solveAll_induction (nil : Q [] (.proof []))
    (cons : ∀ {goal goals first others}, P goal first → Q goals others →
      Q (goal :: goals) (first.andThen others)) {goals : List Sequent}
    (h : ∀ goal ∈ goals, ∀ result, solve s goal = .ok result → P goal result) {result : Result}
    (hsolve : solveAll s goals = .ok result) : Q goals result := by
  induction goals generalizing result with
  | nil =>
    rw [solveAll] at hsolve
    exact Except.ok.inj hsolve ▸ nil
  | cons goal goals ih =>
    obtain ⟨first, others, hfirst, hothers, rfl⟩ := solveAll_cons_eq_ok_iff.1 hsolve
    rw [List.forall_mem_cons] at h
    exact cons (h.1 first hfirst) (ih h.2 hothers)

/-- **Induction over the recursion**, with a statement `P` about single goals and a statement `Q`
about lists of them. -/
theorem solve_induction
    (saturated : ∀ {goal : Sequent}, goal.Saturated →
      P goal (if goal.isAxiom then .proof [.ax] else .saturated goal))
    (logical : ∀ {goal : Sequent} {rule : Rule} {goals : List Sequent} {others : Result},
      (∀ last, goal.nextRule last = some rule) → rule.subgoals s goal = .ok goals →
      Q goals others → P goal (Result.andThen (.proof [rule]) others))
    (nil : Q [] (.proof []))
    (cons : ∀ {goal goals first others}, P goal first → Q goals others →
      Q (goal :: goals) (first.andThen others))
    {goal : Sequent} {result : Result} (h : solve s goal = .ok result) : P goal result := by
  induction goal using subgoal_induction s generalizing result with
  | h goal ih =>
  rcases goal.nextRule_cases .start with
    ⟨side, shape, f, hrule, -, -⟩ | ⟨hsat, -, -⟩ | ⟨hsat, -, -⟩
  · obtain ⟨goals, others, hsubgoals, hothers, rfl⟩ := (solve_eq_ok_iff_of_logical hrule).1 h
    refine logical (Sequent.nextRule_eq_of_logical hrule) hsubgoals ?_
    exact solveAll_induction nil cons (fun g hg r => ih _ goals hsubgoals g hg) hothers
  · rw [solve_eq_of_saturated hsat] at h
    exact Except.ok.inj h ▸ saturated hsat
  · rw [solve_eq_of_saturated hsat] at h
    exact Except.ok.inj h ▸ saturated hsat

end Induction

theorem exists_solveAll {goals : List Sequent}
    (h : ∀ goal ∈ goals, ∃ result, solve s goal = .ok result) :
    ∃ result, solveAll s goals = .ok result := by
  induction goals with
  | nil => exact ⟨.proof [], by rw [solveAll]⟩
  | cons goal goals ih =>
    rw [List.forall_mem_cons] at h
    obtain ⟨first, hfirst⟩ := h.1
    obtain ⟨others, hothers⟩ := ih h.2
    exact ⟨_, solveAll_cons_eq_ok_iff.2 ⟨first, others, hfirst, hothers, rfl⟩⟩

/-- The recursion ends without a fault on the sequents of a store. -/
theorem exists_solve (hs : s.WellFormed) {goal : Sequent} (hgoal : s.OwnsSequent goal) :
    ∃ result, solve s goal = .ok result := by
  induction goal using subgoal_induction s with
  | h goal ih =>
  rcases goal.nextRule_cases .start with
    ⟨side, shape, f, hrule, hmem, hkind⟩ | ⟨hsat, -, -⟩ | ⟨hsat, -, -⟩
  · obtain ⟨goals, hinfers⟩ := exists_infers hs (hgoal side f hmem) hmem hkind
    have hsubgoals := subgoals_eq_ok_iff.2 hinfers
    obtain ⟨others, hothers⟩ := exists_solveAll fun subgoal hsubgoal =>
      ih _ goals hsubgoals subgoal hsubgoal (hinfers.owns hs hgoal subgoal hsubgoal)
    exact ⟨_, (solve_eq_ok_iff_of_logical hrule).2 ⟨goals, others, hsubgoals, hothers, rfl⟩⟩
  · exact ⟨_, solve_eq_of_saturated hsat⟩
  · exact ⟨_, solve_eq_of_saturated hsat⟩

/-! ### Paths of the loop -/

/-- **Where the loop arrives with the goals above `rest`**: they are gone, and the rules of a proof
have been recorded, or a saturated leaf on which the closing rule has failed lies on top. -/
inductive Arrives (state : State) (rest : List Branch) : Result → State → Prop
  | proof {final : State} {rules : List Rule} (hbranches : final.branches = rest)
      (hrules : final.rules = state.rules ++ rules) : Arrives state rest (.proof rules) final
  | saturated {final : State} {leaf : Sequent} {depth : Nat} {others : List Branch}
      (hbranches : final.branches = ⟨leaf, .closing, depth⟩ :: others) (hsat : leaf.Saturated) :
      Arrives state rest (.saturated leaf) final

/-- The loop takes a path from a state with the goal on top to where its result says. -/
def Follows (s : Store) (goal : Sequent) (result : Result) : Prop :=
  ∀ {state : State} {last : LastStep} {depth : Nat} {rest : List Branch},
    state.branches = ⟨goal, last, depth⟩ :: rest → last ≠ .closing →
      ∃ n final, AdvancesBy s state n final ∧ Arrives state rest result final

/-- The loop takes a path from a state with the goals on top to where their result says. -/
def FollowsAll (s : Store) (goals : List Sequent) (result : Result) : Prop :=
  ∀ {state : State} {last : LastStep} {depth : Nat} {rest : List Branch},
    state.branches = goals.map (⟨·, last, depth⟩) ++ rest → last ≠ .closing →
      ∃ n final, AdvancesBy s state n final ∧ Arrives state rest result final

section Paths

variable {state final : State} {rest : List Branch} {goal : Sequent} {goals : List Sequent}
  {first others result : Result}

/-- One path after another. -/
theorem Arrives.andThen {middle : State} {above : List Branch} {rules : List Rule}
    (hfirst : Arrives state above (.proof rules) middle) (h : Arrives middle rest result final) :
    Arrives state rest (Result.andThen (.proof rules) result) final := by
  cases hfirst with
  | proof _ hrules =>
    cases h with
    | proof hbranches hmore =>
      exact .proof hbranches (by rw [hmore, hrules, List.append_assoc])
    | saturated hbranches hsat => exact .saturated hbranches hsat

theorem follows_of_saturated (hsat : goal.Saturated) :
    Follows s goal (if goal.isAxiom then .proof [.ax] else .saturated goal) := by
  intro state last depth rest hbranches hlast
  have hrule : goal.nextRule last = some .ax := by rw [hsat.nextRule_eq, if_neg hlast]
  cases hax : goal.isAxiom with
  | true =>
    have happly : Rule.ax.apply s goal = .ok .closed := by simp [Rule.apply, hax]
    exact ⟨_, _, AdvancesBy.refl.snoc (.step hbranches hrule happly),
      .proof rfl (rules_advance ..)⟩
  | false =>
    have happly : Rule.ax.apply s goal = .ok .failed := by simp [Rule.apply, hax]
    exact ⟨_, _, AdvancesBy.refl.snoc (.step hbranches hrule happly), .saturated rfl hsat⟩

theorem follows_of_logical {rule : Rule} (hrule : ∀ last, goal.nextRule last = some rule)
    (hsubgoals : rule.subgoals s goal = .ok goals) (h : FollowsAll s goals others) :
    Follows s goal (Result.andThen (.proof [rule]) others) := by
  intro state last depth rest hbranches hlast
  have hstep : Advances s state _ :=
    .step hbranches (hrule last) (Rule.apply_eq_subgoals_iff.2 hsubgoals)
  have hnext : (state.advance ⟨goal, last, depth⟩ rest rule (.subgoals goals)).branches =
      goals.map (⟨·, .of rule, depth + 1⟩) ++ rest := rfl
  have hof : LastStep.of rule ≠ .closing := by
    obtain ⟨side, shape, f, _, _, rfl, -⟩ := Store.subgoals_eq_ok hsubgoals
    exact nofun
  obtain ⟨n, final, hpath, harrives⟩ := h hnext hof
  exact ⟨_, final, (AdvancesBy.refl.snoc hstep).trans hpath,
    Arrives.andThen (.proof hnext (rules_advance ..)) harrives⟩

theorem followsAll_nil : FollowsAll s [] (.proof []) := by
  intro state last depth rest hbranches _
  exact ⟨0, state, .refl, .proof hbranches (List.append_nil _).symm⟩

theorem FollowsAll.cons (hfirst : Follows s goal first) (hothers : FollowsAll s goals others) :
    FollowsAll s (goal :: goals) (first.andThen others) := by
  intro state last depth rest hbranches hlast
  obtain ⟨n, middle, hpath, harrives⟩ := hfirst hbranches hlast
  cases harrives with
  | saturated htop hsat =>
    -- the loop ends here and does not come to the other goals
    exact ⟨n, middle, hpath, .saturated htop hsat⟩
  | proof hrest hrules =>
    obtain ⟨m, final, hmore, harrives⟩ := hothers hrest hlast
    exact ⟨n + m, final, hpath.trans hmore, Arrives.andThen (.proof hrest hrules) harrives⟩

/-- **The loop follows the recursion.** -/
theorem follows_of_solve (h : solve s goal = .ok result) : Follows s goal result :=
  solve_induction (Q := FollowsAll s) follows_of_saturated follows_of_logical followsAll_nil
    FollowsAll.cons h

end Paths

/-! ### Leaves -/

/-- `leaf` has this place in the tree that the strategy spells out below a goal.  A place lists the
numbers of the branches on the way to it, the branches of a rule being counted from zero. -/
inductive LeafAt (s : Store) : Sequent → List Nat → Sequent → Prop
  | here {leaf : Sequent} (h : leaf.Saturated) : LeafAt s leaf [] leaf
  | branch {goal subgoal leaf : Sequent} {rule : Rule} {goals : List Sequent} {i : Nat}
      {place : List Nat} (hrule : goal.nextRule .start = some rule)
      (hsubgoals : rule.subgoals s goal = .ok goals) (hi : goals[i]? = some subgoal)
      (h : LeafAt s subgoal place leaf) : LeafAt s goal (i :: place) leaf

/-- `leaf` has this place in the trees below several goals, the number of the goal coming first. -/
inductive LeafAmong (s : Store) (goals : List Sequent) : List Nat → Sequent → Prop
  | of {goal leaf : Sequent} {i : Nat} {place : List Nat} (hi : goals[i]? = some goal)
      (h : LeafAt s goal place leaf) : LeafAmong s goals (i :: place) leaf

/-- `leaf` is the leftmost of the leaves that cannot be closed. -/
def LeftmostOpen (leaves : List Nat → Sequent → Prop) (leaf : Sequent) : Prop :=
  ∃ place, leaves place leaf ∧ leaf.isAxiom = false ∧
    ∀ place' leaf', leaves place' leaf' → place' < place → leaf'.isAxiom = true

/-- What a result says about the leaves: all of them can be closed, or one is the leftmost that
cannot. -/
def Surveys (leaves : List Nat → Sequent → Prop) : Result → Prop
  | .proof _ => ∀ place leaf, leaves place leaf → leaf.isAxiom = true
  | .saturated leaf => LeftmostOpen leaves leaf
  | .gaveUp => False

section Leaves

variable {goal leaf : Sequent} {goals : List Sequent} {place : List Nat} {first others : Result}

theorem LeafAt.eq_of_saturated (h : LeafAt s goal place leaf) (hsat : goal.Saturated) :
    place = [] ∧ leaf = goal := by
  cases h with
  | here => exact ⟨rfl, rfl⟩
  | branch hrule hsubgoals =>
    -- the strategy chooses the closing rule, which has no subgoals
    rw [hsat.nextRule_eq] at hrule
    cases hrule
    cases hsubgoals

theorem leafAt_iff_leafAmong {rule : Rule} (hrule : goal.nextRule .start = some rule)
    (hsubgoals : rule.subgoals s goal = .ok goals) :
    LeafAt s goal place leaf ↔ LeafAmong s goals place leaf := by
  constructor
  · intro h
    cases h with
    | here hsat =>
      rw [hsat.nextRule_eq] at hrule
      cases hrule
      cases hsubgoals
    | branch hrule' hsubgoals' hi hleaf =>
      obtain rfl := Option.some.inj (hrule.symm.trans hrule')
      obtain rfl := Except.ok.inj (hsubgoals.symm.trans hsubgoals')
      exact .of hi hleaf
  · rintro ⟨hi, hleaf⟩
    exact .branch hrule hsubgoals hi hleaf

theorem surveys_of_saturated (hsat : goal.Saturated) :
    Surveys (LeafAt s goal) (if goal.isAxiom then .proof [.ax] else .saturated goal) := by
  cases hax : goal.isAxiom with
  | true =>
    intro place leaf hleaf
    rw [(hleaf.eq_of_saturated hsat).2, hax]
  | false =>
    exact ⟨[], .here hsat, hax, fun place _ _ hlt => absurd hlt (List.not_lt_nil place)⟩

theorem surveys_of_logical {rule : Rule} (hrule : ∀ last, goal.nextRule last = some rule)
    (hsubgoals : rule.subgoals s goal = .ok goals) (h : Surveys (LeafAmong s goals) others) :
    Surveys (LeafAt s goal) (Result.andThen (.proof [rule]) others) := by
  have hleaves : LeafAt s goal = LeafAmong s goals := by
    funext place leaf
    exact propext (leafAt_iff_leafAmong (hrule .start) hsubgoals)
  rw [hleaves]
  cases others <;> exact h

theorem surveys_nil : Surveys (LeafAmong s []) (.proof []) := by
  rintro _ _ ⟨hi, -⟩
  cases hi

/-- The leaves of the first goal come before those of the others. -/
theorem leafAmong_cons_cases (h : LeafAmong s (goal :: goals) place leaf) :
    (∃ rest, place = 0 :: rest ∧ LeafAt s goal rest leaf) ∨
      ∃ i rest, place = (i + 1) :: rest ∧ LeafAmong s goals (i :: rest) leaf := by
  obtain @⟨_, _, i, rest, hi, hleaf⟩ := h
  cases i with
  | zero =>
    cases hi
    exact .inl ⟨rest, rfl, hleaf⟩
  | succ i => exact .inr ⟨i, rest, rfl, .of hi hleaf⟩

theorem Surveys.cons (hfirst : Surveys (LeafAt s goal) first)
    (hothers : Surveys (LeafAmong s goals) others) :
    Surveys (LeafAmong s (goal :: goals)) (first.andThen others) := by
  cases first with
  | gaveUp => exact hfirst.elim
  | saturated leaf =>
    obtain ⟨place, hleaf, hopen, hleft⟩ := hfirst
    refine ⟨0 :: place, .of rfl hleaf, hopen, fun _ other hother hlt => ?_⟩
    rcases leafAmong_cons_cases hother with ⟨rest, rfl, hbefore⟩ | ⟨i, rest, rfl, -⟩
    · exact hleft rest other hbefore (by simpa [List.cons_lt_cons_iff] using hlt)
    · simp [List.cons_lt_cons_iff] at hlt
  | proof rules =>
    cases others with
    | gaveUp => exact hothers.elim
    | proof more =>
      intro _ other hother
      rcases leafAmong_cons_cases hother with ⟨rest, rfl, hbefore⟩ | ⟨i, rest, rfl, hafter⟩
      · exact hfirst rest other hbefore
      · exact hothers (i :: rest) other hafter
    | saturated leaf =>
      -- to the left of the leaf there are also the leaves of the first goal, all of them axioms
      obtain ⟨_, @⟨_, _, i, place, hi, hleaf⟩, hopen, hleft⟩ := hothers
      refine ⟨(i + 1) :: place, .of hi hleaf, hopen, fun _ other hother hlt => ?_⟩
      rcases leafAmong_cons_cases hother with ⟨rest, rfl, hbefore⟩ | ⟨j, rest, rfl, hafter⟩
      · exact hfirst rest other hbefore
      · exact hleft (j :: rest) other hafter (by simpa [List.cons_lt_cons_iff] using hlt)

/-- **The result of the recursion is the leftmost open leaf**, if there is one. -/
theorem surveys_of_solve {result : Result} (h : solve s goal = .ok result) :
    Surveys (LeafAt s goal) result :=
  solve_induction (P := fun goal => Surveys (LeafAt s goal))
    (Q := fun goals => Surveys (LeafAmong s goals)) surveys_of_saturated surveys_of_logical
    surveys_nil Surveys.cons h

end Leaves

/-! ### The loop and the recursion -/

/-- From a problem, the loop ends with the result of the recursion. -/
theorem search_of_solve {problem : Sequent} {result : Result} (h : solve s problem = .ok result) :
    ∃ run, s.search none problem = .ok run ∧ run.result = result := by
  have hbranches : (State.ofProblem s problem).branches = [⟨problem, .start, 0⟩] := rfl
  obtain ⟨n, final, hpath, harrives⟩ := follows_of_solve h hbranches nofun
  cases harrives with
  | proof hnone hrules =>
    refine ⟨_, (hpath.run_eq none).trans (run_eq_proof hnone), ?_⟩
    exact congrArg Result.proof hrules
  | saturated htop hsat =>
    have hrule := hsat.nextRule_eq .closing
    exact ⟨_, (hpath.run_eq none).trans (run_eq_saturated htop hrule), rfl⟩

/-- **The search is the recursion.**  Without a limit it returns what the recursion gives for its
problem, and the recursion ends.  A proof is returned if all leaves of the tree that the strategy
spells out are axioms, and otherwise the leftmost leaf that is none. -/
theorem search_eq_solve (hs : s.Reachable) {problem : Sequent} (hproblem : s.OwnsSequent problem) :
    ∃ run, s.search none problem = .ok run ∧ solve s problem = .ok run.result ∧
      (∀ leaf, run.result = .saturated leaf → LeftmostOpen (LeafAt s problem) leaf) ∧
      ∀ rules, run.result = .proof rules →
        ∀ place leaf, LeafAt s problem place leaf → leaf.isAxiom = true := by
  obtain ⟨result, hresult⟩ := exists_solve hs.wellFormed hproblem
  obtain ⟨run, hrun, rfl⟩ := search_of_solve hresult
  have hsurveys := surveys_of_solve hresult
  refine ⟨run, hrun, hresult, fun leaf hleaf => ?_, fun rules hrules => ?_⟩
  · rwa [hleaf] at hsurveys
  · rwa [hrules] at hsurveys

/-- The tree of `p | q => p & q` has four leaves.  The first of them, `p => p`, is an axiom, and the
search ends with the second one, `p => q`. -/
theorem search_eq_solve_on_two_open_leaves :
    let problem : SequentExpr :=
      ⟨[.binary .or (.atom "p") (.atom "q")], [.binary .and (.atom "p") (.atom "q")]⟩
    let built := problem.build (.ofPolicy {})
    let p : Formula := ⟨2, .atomic⟩
    let q : Formula := ⟨3, .atomic⟩
    ∃ run, built.2.search none built.1 = .ok run ∧
      solve built.2 built.1 = .ok (.saturated (.ofLists [p] [q])) ∧
      run.result = .saturated (.ofLists [p] [q]) ∧
      LeftmostOpen (LeafAt built.2 built.1) (.ofLists [p] [q]) := by
  intro problem built p q
  obtain ⟨hreachable, howns⟩ := Store.reachable_build_sequent {} problem
  obtain ⟨run, hrun, hsolve, hleftmost, -⟩ := search_eq_solve hreachable howns
  have hresult : (solve built.2 built.1).toOption = some (.saturated (.ofLists [p] [q])) := by
    decide +kernel
  rw [hsolve] at hresult
  have hleaf : run.result = .saturated (.ofLists [p] [q]) := Option.some.inj hresult
  exact ⟨run, hrun, hleaf ▸ hsolve, hleaf, hleftmost _ hleaf⟩

end SequentCalculus.Search
