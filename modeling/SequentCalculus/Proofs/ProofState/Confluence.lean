import SequentCalculus.Proofs.ProofState.Course
import SequentCalculus.Proofs.Search.Verdict

/-!
# Interactive proofs end, and end alike

A rule with two premises copies the context, so that a refinement may add connectives to a proof.
What it lowers is the sum of `Store.goalBound` over the open goals.  So the bound of the loaded
sequent is never exceeded, neither by the number of refinements (`Course.countP_add_le`) nor by that
of the goals that come up, of which each refinement uses up one (`Course.created_add_length`).

A proof is at its end if no request does anything any more (`Finished`), which means that no rule is
applicable to any of its goals (`Sound.finished_iff`).  Such goals fail under some assignment, and
the open goals stand and fall with the problem.  Therefore none is left exactly if the problem is
valid, which is also what decides a search.
-/

namespace SequentCalculus

namespace ProofState

variable {p p' : ProofState} {refinement : Refinement} {refinements : List Refinement}

/-! ### Counting -/

theorem Effect.countP_add_le {s : Store} {qs qs' : List Sequent} (h : Effect s qs refinement qs') :
    [refinement].countP (· ≠ .nothingToDo) + sumBy s.goalBound qs' ≤ sumBy s.goalBound qs := by
  cases h with
  | nothing => simp
  | @closed q before after hax =>
    have hpos := Store.goalBound_pos (s := s) q
    simp only [sumBy_append, sumBy_cons, List.countP_singleton, ne_eq, reduceCtorEq,
      not_false_eq_true, decide_true, if_true]
    omega
  | expanded before after hinfers =>
    have hlt := hinfers.sumBy_goalBound_lt
    simp only [sumBy_append, sumBy_cons, List.countP_singleton, ne_eq, reduceCtorEq,
      not_false_eq_true, decide_true, if_true]
    omega

/-- A refinement uses up one goal for those that come up. -/
theorem Effect.created_add_length {s : Store} {qs qs' : List Sequent}
    (h : Effect s qs refinement qs') :
    refinement.created + qs.length = [refinement].countP (· ≠ .nothingToDo) + qs'.length := by
  cases h with
  | nothing => simp [Refinement.created]
  | closed before after hax =>
    simp [Refinement.created]
    omega
  | expanded before after hinfers hlength =>
    simp [Refinement.created, hlength]
    omega

/-- **Refinements use up the bound**, those that do nothing apart. -/
theorem Course.countP_add_le (h : Course p refinements p') (hp : p.Sound) :
    refinements.countP (· ≠ .nothingToDo) + sumBy p.store.goalBound p'.sequents ≤
      sumBy p.store.goalBound p.sequents := by
  refine h.lift (R := fun qs xs qs' => xs.countP (· ≠ .nothingToDo) +
    sumBy p.store.goalBound qs' ≤ sumBy p.store.goalBound qs) (fun _ => ?_)
    (fun heffect hrest => ?_) hp rfl
  · simp
  · have hstep := heffect.countP_add_le
    rw [← List.singleton_append, List.countP_append]
    omega

theorem Course.created_add_length (h : Course p refinements p') (hp : p.Sound) :
    sumBy Refinement.created refinements + p.sequents.length =
      refinements.countP (· ≠ .nothingToDo) + p'.sequents.length := by
  refine h.lift (R := fun qs xs qs' => sumBy Refinement.created xs + qs.length =
    xs.countP (· ≠ .nothingToDo) + qs'.length) (fun _ => ?_) (fun heffect hrest => ?_) hp rfl
  · simp
  · have hstep := heffect.created_add_length
    rw [sumBy_cons, ← List.singleton_append, List.countP_append]
    omega

/-- **There is room for every goal** that can still come up. -/
theorem Course.next_add_le {problem : Sequent} (h : Course (p.loadSequent problem) refinements p')
    (hp : (p.loadSequent problem).Sound) :
    p'.next.index + sumBy p.store.goalBound p'.sequents ≤
      p.store.goalBound problem + p'.sequents.length := by
  have heffort := h.countP_add_le hp
  have hbalance := h.created_add_length hp
  have hnext := (h.sound hp).2.2
  simp only [loadSequent, sequents, List.map_cons, List.map_nil, List.length_singleton, sumBy_cons,
    sumBy_nil] at heffort hbalance hnext ⊢
  omega

/-- Numbers do not run out if the bound of the loaded sequent is below the number of them. -/
theorem Course.not_outOfNumbers {problem : Sequent}
    (h : Course (p.loadSequent problem) refinements p') (hp : (p.loadSequent problem).Sound)
    (hbound : p.store.goalBound problem < UInt32.size) : ¬p'.OutOfNumbers := by
  rintro ⟨q, hq, rule, premises, hinfers, hsize⟩
  have hroom := h.next_add_le hp
  have hstore : p'.store = p.store := (h.sound hp).2.1
  have hpremises := hinfers.sumBy_goalBound_lt
  rw [hstore] at hpremises
  -- every goal takes at least one off the bound, and this one takes one for each premise as well
  obtain ⟨before, after, hsequents⟩ := List.append_of_mem hq
  have hbefore := p.store.length_le_sumBy_goalBound before
  have hafter := p.store.length_le_sumBy_goalBound after
  have hlength := p.store.length_le_sumBy_goalBound premises
  simp only [hsequents, sumBy_append, sumBy_cons, List.length_append, List.length_cons] at hroom
  omega

/-! ### The end -/

/-- **The proof is at its end**: no request does anything any more. -/
def Finished (p : ProofState) : Prop :=
  ∀ r : Request, ∃ p', p.request r = .ok (.nothingToDo, p')

theorem Sound.refine_of_stuck (hp : p.Sound)
    (hstuck : ∀ goal ∈ p.goals, goal.sequent.applicableRules = []) (id : GoalId) (rule : Rule) :
    p.refine id rule = .ok (.nothingToDo, p.remember id) := by
  refine hp.refine_eq_nothingToDo fun goal hgoal _ => ?_
  rw [hstuck goal hgoal]
  exact List.not_mem_nil

/-- At the end, and only there, no rule is applicable to any goal. -/
theorem Sound.finished_iff (hp : p.Sound) :
    p.Finished ↔ ∀ goal ∈ p.goals, goal.sequent.applicableRules = [] := by
  constructor
  · intro hfinished goal hgoal
    refine List.eq_nil_iff_forall_not_mem.2 fun rule hrule => ?_
    obtain ⟨p', hrefine⟩ := hfinished (.refine goal.id rule)
    change p.refine goal.id rule = _ at hrefine
    rcases (mem_applicableRules_iff hp.wellFormed (hp.owns goal hgoal)).1 hrule with
      ⟨rfl, hax⟩ | ⟨premises, hinfers⟩
    · rw [hp.refine_eq_closed hgoal hax] at hrefine
      cases hrefine
    · rw [hp.refine_eq_expanded hgoal hinfers] at hrefine
      cases hopen : (p.close goal.id).openGoals premises <;> rw [hopen] at hrefine <;> cases hrefine
  · intro hstuck r
    cases r with
    | refine id rule => exact ⟨_, hp.refine_of_stuck hstuck id rule⟩
    | refineAt address =>
      show ∃ p', p.refineAt address = _
      simp only [refineAt, ruleAt, snd_applicableRules]
      cases (p.applicableRules address.goal).1.bind (·[address.rule]?) with
      | none => exact ⟨_, rfl⟩
      | some rule =>
        refine ⟨_, (hp.remember address.goal).refine_of_stuck (fun goal hgoal => ?_) _ rule⟩
        obtain ⟨old, hold, -, hsequent, -⟩ := mem_remember hgoal
        rw [hsequent]
        exact hstuck old hold

/-- **The outcome is the verdict**: at the end no goal is left exactly if the problem is valid. -/
theorem Course.isComplete_iff_of_finished {problem : Sequent}
    (h : Course (p.loadSequent problem) refinements p') (hstore : p.store.WellFormed)
    (hproblem : p.store.OwnsSequent problem) (hfinished : p'.Finished) :
    p'.isComplete = true ↔ ∀ α : Assignment, problem.Holds (p.store.eval α) := by
  have hstuck := (h.sound (sound_loadSequent hstore hproblem)).1.finished_iff.1 hfinished
  rw [isComplete_iff]
  constructor
  · exact h.holds_of_complete hstore hproblem
  · intro hvalid
    refine List.eq_nil_iff_forall_not_mem.2 fun goal hgoal => ?_
    -- a goal that is left would refute the problem
    obtain ⟨α, hα⟩ := h.exists_not_holds hstore hproblem hgoal (hstuck goal hgoal)
    exact hα (hvalid α)

/-- **Interactive proofs end, and their outcome does not depend on what a user does.**  From a
sequent with `n` connectives at most `2 ^ (n + 1) - 1` requests do anything and as many goals come
up, so that numbers cannot run out up to 31 connectives.  When nothing can be done any more, no rule
is applicable to any goal that is left, and the proof is complete exactly if a search finds one. -/
theorem refining_ends_with_verdict {problem : Sequent} (hs : p.store.Reachable)
    (hproblem : p.store.OwnsSequent problem) :
    let n := sumBy p.store.connectives (problem.left.occurrences ++ problem.right.occurrences)
    ∃ run, p.store.search none problem = .ok run ∧
      (∀ refinements p', Course (p.loadSequent problem) refinements p' →
        refinements.countP (· ≠ .nothingToDo) ≤ 2 ^ (n + 1) - 1 ∧
        p'.next.index = 1 + sumBy Refinement.created refinements ∧
        1 + sumBy Refinement.created refinements ≤ 2 ^ (n + 1) - 1 ∧
        (n ≤ 31 → ∀ r : Request, ∃ refinement next, p'.request r = .ok (refinement, next)) ∧
        (p'.Finished →
          (∀ goal ∈ p'.goals, goal.sequent.applicableRules = []) ∧
          (p'.isComplete = true ↔ ∃ rules, run.result = .proof rules))) ∧
      ((∀ refinements p', Course (p.loadSequent problem) refinements p' → p'.Finished →
          p'.isComplete = true) ∨
        ∀ refinements p', Course (p.loadSequent problem) refinements p' → p'.Finished →
          p'.isComplete = false) := by
  intro n
  have hwf := hs.wellFormed
  have hstart := sound_loadSequent hwf hproblem
  have hbound : p.store.goalBound problem = 2 ^ (n + 1) - 1 := by
    rw [Store.goalBound, Store.weight_eq]
  obtain ⟨run, hrun, -, hverdict⟩ := Search.search_verdict hwf hproblem
  have houtcome : ∀ refinements p', Course (p.loadSequent problem) refinements p' → p'.Finished →
      (p'.isComplete = true ↔ ∃ rules, run.result = .proof rules) :=
    fun refinements p' h hfinished =>
      (h.isComplete_iff_of_finished hwf hproblem hfinished).trans hverdict.symm
  refine ⟨run, hrun, fun refinements p' h => ?_, ?_⟩
  · have heffort : refinements.countP (· ≠ .nothingToDo) +
        sumBy p.store.goalBound p'.sequents ≤ p.store.goalBound problem := h.countP_add_le hstart
    have hroom := h.next_add_le hstart
    have hpos := p.store.length_le_sumBy_goalBound p'.sequents
    obtain ⟨hp', -, hnext⟩ := h.sound hstart
    have hone : p'.next.index = 1 + sumBy Refinement.created refinements := hnext
    refine ⟨by omega, hone, by omega, fun hn r => ?_, fun hfinished => ?_⟩
    · have hpow : 2 ^ (n + 1) ≤ 2 ^ 32 := Nat.pow_le_pow_right (by decide) (by omega)
      have hsize : UInt32.size = 2 ^ 32 := rfl
      rcases hp'.request_cases r with ⟨refinement, next, hok, -⟩ | ⟨-, hout⟩
      · exact ⟨refinement, next, hok⟩
      · exact absurd hout (h.not_outOfNumbers hstart (by omega))
    · exact ⟨hp'.finished_iff.1 hfinished, houtcome refinements p' h hfinished⟩
  · by_cases hproof : ∃ rules, run.result = .proof rules
    · refine .inl fun refinements p' h hfinished => ?_
      exact (houtcome refinements p' h hfinished).2 hproof
    · refine .inr fun refinements p' h hfinished => Bool.eq_false_iff.2 fun hcomplete => ?_
      exact hproof ((houtcome refinements p' h hfinished).1 hcomplete)

/-- Five refinements complete `p | q => q | p`, out of seven that are possible with two connectives.
So every other way to its end completes it, and a search finds a proof. -/
theorem refining_ends_with_swapped_disjunction :
    let problem : SequentExpr :=
      ⟨[.binary .or (.atom "p") (.atom "q")], [.binary .or (.atom "q") (.atom "p")]⟩
    let built := problem.build (.ofPolicy {})
    let start := (ofStore built.2).loadSequent built.1
    (∃ refinements p', Course start refinements p' ∧ p'.Finished ∧
        refinements.countP (· ≠ .nothingToDo) = 5 ∧ p'.isComplete = true) ∧
      (∃ run, built.2.search none built.1 = .ok run ∧ ∃ rules, run.result = .proof rules) ∧
      ∀ refinements p', Course start refinements p' →
        refinements.countP (· ≠ .nothingToDo) ≤ 7 ∧ (p'.Finished → p'.isComplete = true) := by
  intro problem built start
  let split : Rule := .logical .left .or ⟨4, .compound (.bin .or)⟩
  let join : Rule := .logical .right .or ⟨5, .compound (.bin .or)⟩
  let id (n : Nat) (h : n < UInt32.size := by decide) : GoalId := ⟨n, h⟩
  let made : List Request := [.refine .zero split, .refine (id 2) join, .refine (id 1) join,
    .refine (id 3) .ax, .refine (id 4) .ax]
  have hmade : (start.requests made).toOption.map (fun rest => (rest.1, rest.2.isComplete)) =
      some ([.expanded [id 1, id 2], .expanded [id 3], .expanded [id 4], .closed, .closed],
        true) := by
    decide +kernel
  obtain ⟨p', hcourse, hcomplete⟩ := exists_course_of_requests isComplete hmade
  have hpolicy := Store.reachable_ofPolicy {}
  obtain ⟨hgrows, howns⟩ := Store.grows_build_sequent hpolicy.wellFormed problem
  have hreachable : built.2.Reachable := hpolicy.grow hgrows
  have hfinished : p'.Finished := by
    refine (hcourse.sound (sound_loadSequent hreachable.wellFormed howns)).1.finished_iff.2 ?_
    rw [isComplete_iff.1 hcomplete]
    simp
  obtain ⟨run, hrun, hends, -⟩ :=
    refining_ends_with_verdict (p := ofStore built.2) hreachable howns
  have hbound : 2 ^ (sumBy built.2.connectives
      (built.1.left.occurrences ++ built.1.right.occurrences) + 1) - 1 = 7 := by
    decide +kernel
  have hproof := ((hends _ p' hcourse).2.2.2.2 hfinished).2.1 hcomplete
  refine ⟨⟨_, p', hcourse, hfinished, by decide, hcomplete⟩, ⟨run, hrun, hproof⟩, ?_⟩
  intro refinements p'' h
  obtain ⟨hcount, -, -, -, hlast⟩ := hends refinements p'' h
  exact ⟨Nat.le_trans hcount (Nat.le_of_eq hbound), fun hfinished => (hlast hfinished).2.2 hproof⟩

end ProofState

end SequentCalculus
