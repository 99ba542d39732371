import SequentCalculus.Proofs.ProofState.Invariant

/-!
# The course of an interactive proof

A user makes requests to refine, on any goals, by any rules or addresses and in any order, and may
look at rules in between.  `Course` lists what the requests came to.

What comes of a rule on a goal is said once, by `Refines`, and what that means for the open sequents
by `Effect`: nothing, or an axiom is dropped, or a conclusion makes way for its premises.
`Sound.request_cases` is the step lemma, which also says that a request is only refused if goal
numbers run out, and `Course.lift` the run lemma, which lifts a relation between open sequents from
effects to courses.

The first such relation is truth.  Every rule is sound and invertible, so under any assignment the
open sequents hold all together or not at all, before and after (`Course.forall_holds_iff`).
Whatever a user does, the problem is therefore neither lost nor gained.
-/

namespace SequentCalculus

/-- A request to refine: a goal by a rule, or by the rule at an address. -/
inductive Request where
  | refine (id : GoalId) (rule : Rule)
  | refineAt (address : Address)
  deriving DecidableEq, Repr

/-- The number of goals that came up in a refinement. -/
def Refinement.created : Refinement → Nat
  | .nothingToDo => 0
  | .closed => 0
  | .expanded children => children.length

namespace ProofState

/-- Makes a request. -/
def request (p : ProofState) : Request → Except Fault (Refinement × ProofState)
  | .refine id rule => p.refine id rule
  | .refineAt address => p.refineAt address

/-- **A course of requests**: from a state, with what the requests came to, to a state.  Rules may
be looked at before and after every request. -/
inductive Course : ProofState → List Refinement → ProofState → Prop
  | stay (p : ProofState) : Course p [] p
  | look {p p' : ProofState} {refinements : List Refinement} (id : GoalId)
      (h : Course (p.applicableRules id).2 refinements p') : Course p refinements p'
  | request {p next p' : ProofState} {refinement : Refinement} {refinements : List Refinement}
      (r : Request) (hr : p.request r = .ok (refinement, next))
      (h : Course next refinements p') : Course p (refinement :: refinements) p'

/-- Makes requests one after the other. -/
def requests (p : ProofState) : List Request → Except Fault (List Refinement × ProofState)
  | [] => .ok ([], p)
  | r :: rs =>
    match p.request r with
    | .error fault => .error fault
    | .ok (refinement, next) =>
      (next.requests rs).map fun rest => (refinement :: rest.1, rest.2)

variable {p p' : ProofState} {refinement : Refinement} {refinements : List Refinement}

theorem course_of_requests {rs : List Request} (h : p.requests rs = .ok (refinements, p')) :
    Course p refinements p' := by
  induction rs generalizing p refinements with
  | nil =>
    obtain ⟨rfl, rfl⟩ := Prod.mk.inj (Except.ok.inj h)
    exact .stay p
  | cons r rs ih =>
    rw [requests] at h
    split at h
    · cases h
    · rename_i refinement next hr
      cases hrest : next.requests rs with
      | error fault =>
        rw [hrest] at h
        cases h
      | ok rest =>
        rw [hrest] at h
        obtain ⟨rfl, rfl⟩ := Prod.mk.inj (Except.ok.inj h)
        exact .request r hr (ih hrest)

/-- A way to run into a course, and to look at where it leads. -/
theorem exists_course_of_requests {β : Type} (look : ProofState → β) {seen : β} {rs : List Request}
    (h : (p.requests rs).toOption.map (fun rest => (rest.1, look rest.2)) =
      some (refinements, seen)) :
    ∃ p', Course p refinements p' ∧ look p' = seen := by
  cases hrequests : p.requests rs with
  | error fault =>
    rw [hrequests] at h
    cases h
  | ok rest =>
    rw [hrequests] at h
    obtain ⟨rfl, rfl⟩ := Prod.mk.inj (Option.some.inj h)
    exact ⟨rest.2, course_of_requests hrequests, rfl⟩

theorem Course.trans {p'' : ProofState} {more : List Refinement} (h : Course p refinements p')
    (hmore : Course p' more p'') : Course p (refinements ++ more) p'' := by
  induction h with
  | stay p => exact hmore
  | look id _ ih => exact .look id (ih hmore)
  | request r hr _ ih => exact .request r hr (ih hmore)

/-- To ask whether the proof is exhausted is to look at the rules of one goal after the other. -/
theorem course_isExhaustedAmong (p : ProofState) (ids : List GoalId) :
    Course p [] (p.isExhaustedAmong ids).2 := by
  induction ids generalizing p with
  | nil => exact .stay p
  | cons id ids ih =>
    rw [isExhaustedAmong]
    split
    · exact .look id (.stay _)
    · exact .look id (ih _)

/-! ### Steps -/

/-- **What a refinement makes of the open sequents.** -/
inductive Effect (s : Store) : List Sequent → Refinement → List Sequent → Prop
  | nothing (qs : List Sequent) : Effect s qs .nothingToDo qs
  | closed {q : Sequent} (before after : List Sequent) (hax : q.isAxiom = true) :
      Effect s (before ++ q :: after) .closed (before ++ after)
  | expanded {q : Sequent} {rule : Rule} {premises : List Sequent} {children : List GoalId}
      (before after : List Sequent) (hinfers : Infers s rule q premises)
      (hlength : children.length = premises.length) :
      Effect s (before ++ q :: after) (.expanded children) (before ++ after ++ premises)

/-- What is known after a request was granted. -/
structure Leads (p : ProofState) (refinement : Refinement) (p' : ProofState) : Prop where
  sound : p'.Sound
  store : p'.store = p.store
  next : p'.next.index = p.next.index + refinement.created
  effect : Effect p.store p.sequents refinement p'.sequents

/-- A rule is applicable to an open goal, but there are not enough numbers left for its premises. -/
def OutOfNumbers (p : ProofState) : Prop :=
  ∃ q ∈ p.sequents, ∃ rule premises, Infers p.store rule q premises ∧
    UInt32.size ≤ p.next.index + premises.length

theorem Leads.of_remember {id : GoalId} (h : (p.remember id).Leads refinement p') :
    p.Leads refinement p' :=
  ⟨h.sound, h.store, h.next, sequents_remember p id ▸ h.effect⟩

theorem OutOfNumbers.of_remember {id : GoalId} (h : (p.remember id).OutOfNumbers) :
    p.OutOfNumbers := by
  unfold OutOfNumbers at h
  rw [sequents_remember] at h
  exact h

section Step

variable {goal : Goal}

theorem Sound.leads_nothingToDo (hp : p.Sound) (id : GoalId) :
    p.Leads .nothingToDo (p.remember id) := by
  refine ⟨hp.remember id, rfl, rfl, ?_⟩
  rw [sequents_remember]
  exact .nothing p.sequents

/-- The sequents before, at and after an open goal, and what is left when the goal is closed. -/
theorem Sound.exists_sequents_eq (hp : p.Sound) (hgoal : goal ∈ p.goals) :
    ∃ before after, p.sequents = before ++ goal.sequent :: after ∧
      (p.close goal.id).sequents = before ++ after := by
  obtain ⟨before, after, hgoals⟩ := List.append_of_mem hgoal
  refine ⟨before.map (·.sequent), after.map (·.sequent), ?_, ?_⟩
  · rw [sequents, hgoals, List.map_append, List.map_cons]
  · rw [sequents, hp.goals_close hgoals, List.map_append]

theorem Sound.leads_closed (hp : p.Sound) (hgoal : goal ∈ p.goals)
    (hax : goal.sequent.isAxiom = true) : p.Leads .closed (p.close goal.id) := by
  obtain ⟨before, after, hsequents, hclose⟩ := hp.exists_sequents_eq hgoal
  refine ⟨hp.close goal.id, rfl, rfl, ?_⟩
  rw [hsequents, hclose]
  exact .closed before after hax

theorem Sound.leads_expanded (hp : p.Sound) (hgoal : goal ∈ p.goals) {rule : Rule}
    {premises : List Sequent} (hinfers : Infers p.store rule goal.sequent premises)
    {children : List GoalId} (hopen : (p.close goal.id).openGoals premises = .ok (children, p')) :
    p.Leads (.expanded children) p' := by
  obtain ⟨before, after, hsequents, hclose⟩ := hp.exists_sequents_eq hgoal
  have howns := hinfers.owns hp.wellFormed (hp.owns goal hgoal)
  obtain ⟨hsound, hstore, hopened, hchildren, hnext⟩ := (hp.close goal.id).openGoals howns hopen
  have hlength : children.length = premises.length := by
    simpa using congrArg List.length hchildren
  refine ⟨hsound, hstore, ?_, ?_⟩
  · rw [hnext, Refinement.created, hlength]
    rfl
  · rw [hopened, hsequents, hclose]
    exact .expanded before after hinfers hlength

end Step

/-- **What comes of a rule on a goal**: nothing, the goal is closed, or its premises are opened in
its place. -/
inductive Refines (p : ProofState) (id : GoalId) (rule : Rule) : Refinement → ProofState → Prop
  | nothing (h : ∀ goal ∈ p.goals, goal.id = id → rule ∉ goal.sequent.applicableRules) :
      Refines p id rule .nothingToDo (p.remember id)
  | closed {goal : Goal} (hgoal : goal ∈ p.goals) (hid : goal.id = id) (hrule : rule = .ax)
      (hax : goal.sequent.isAxiom = true) : Refines p id rule .closed (p.close id)
  | expanded {goal : Goal} {premises : List Sequent} {children : List GoalId} {p' : ProofState}
      (hgoal : goal ∈ p.goals) (hid : goal.id = id)
      (hinfers : Infers p.store rule goal.sequent premises)
      (hopen : (p.close id).openGoals premises = .ok (children, p')) :
      Refines p id rule (.expanded children) p'

theorem Sound.refines_or_outOfNumbers (hp : p.Sound) (id : GoalId) (rule : Rule) :
    (∃ refinement p', p.refine id rule = .ok (refinement, p') ∧ p.Refines id rule refinement p') ∨
      (p.refine id rule = .error .idTooLarge ∧ ∃ goal ∈ p.goals, ∃ premises,
        Infers p.store rule goal.sequent premises ∧
        UInt32.size ≤ p.next.index + premises.length) := by
  by_cases happlicable : ∃ goal ∈ p.goals, goal.id = id ∧ rule ∈ goal.sequent.applicableRules
  · obtain ⟨goal, hgoal, rfl, hrule⟩ := happlicable
    rcases (mem_applicableRules_iff hp.wellFormed (hp.owns goal hgoal)).1 hrule with
      ⟨rfl, hax⟩ | ⟨premises, hinfers⟩
    · exact .inl ⟨.closed, _, hp.refine_eq_closed hgoal hax, .closed hgoal rfl rfl hax⟩
    · rw [hp.refine_eq_expanded hgoal hinfers]
      cases hopen : (p.close goal.id).openGoals premises with
      | error fault =>
        obtain ⟨rfl, hsize⟩ := openGoals_eq_error hopen
        exact .inr ⟨rfl, goal, hgoal, premises, hinfers, hsize⟩
      | ok opened =>
        exact .inl ⟨.expanded opened.1, opened.2, rfl, .expanded hgoal rfl hinfers hopen⟩
  · have hnothing : ∀ goal ∈ p.goals, goal.id = id → rule ∉ goal.sequent.applicableRules :=
      fun goal hgoal hid hrule => happlicable ⟨goal, hgoal, hid, hrule⟩
    exact .inl ⟨.nothingToDo, _, hp.refine_eq_nothingToDo hnothing, .nothing hnothing⟩

theorem Refines.leads {id : GoalId} {rule : Rule} (h : p.Refines id rule refinement p')
    (hp : p.Sound) : p.Leads refinement p' := by
  cases h with
  | nothing => exact hp.leads_nothingToDo id
  | closed hgoal hid hrule hax =>
    subst hid
    exact hp.leads_closed hgoal hax
  | expanded hgoal hid hinfers hopen =>
    subst hid
    exact hp.leads_expanded hgoal hinfers hopen

theorem Sound.refine_cases (hp : p.Sound) (id : GoalId) (rule : Rule) :
    (∃ refinement p', p.refine id rule = .ok (refinement, p') ∧ p.Leads refinement p') ∨
      (p.refine id rule = .error .idTooLarge ∧ p.OutOfNumbers) := by
  rcases hp.refines_or_outOfNumbers id rule with
    ⟨refinement, p', hok, hrefines⟩ | ⟨herror, goal, hgoal, premises, hinfers, hsize⟩
  · exact .inl ⟨refinement, p', hok, hrefines.leads hp⟩
  · exact .inr ⟨herror, goal.sequent, List.mem_map_of_mem hgoal, rule, premises, hinfers, hsize⟩

/-- **The step lemma**: a request is granted, with an effect on the open sequents, or goal numbers
have run out. -/
theorem Sound.request_cases (hp : p.Sound) (r : Request) :
    (∃ refinement p', p.request r = .ok (refinement, p') ∧ p.Leads refinement p') ∨
      (p.request r = .error .idTooLarge ∧ p.OutOfNumbers) := by
  cases r with
  | refine id rule => exact hp.refine_cases id rule
  | refineAt address =>
    -- the rule is looked up first, and what is remembered by that makes no difference
    have hlook := snd_applicableRules p address.goal
    show (∃ _ _, p.refineAt address = _ ∧ _) ∨ (p.refineAt address = _ ∧ _)
    simp only [refineAt, ruleAt, hlook]
    cases (p.applicableRules address.goal).1.bind (·[address.rule]?) with
    | none => exact .inl ⟨.nothingToDo, _, rfl, hp.leads_nothingToDo address.goal⟩
    | some rule =>
      rcases (hp.remember address.goal).refine_cases address.goal rule with
        ⟨refinement, p', hok, hleads⟩ | ⟨herror, hout⟩
      · exact .inl ⟨refinement, p', hok, hleads.of_remember⟩
      · exact .inr ⟨herror, hout.of_remember⟩

theorem Sound.leads_of_request (hp : p.Sound) {r : Request}
    (hr : p.request r = .ok (refinement, p')) : p.Leads refinement p' := by
  rcases hp.request_cases r with ⟨refinement', next, hok, hleads⟩ | ⟨herror, -⟩
  · rw [hr] at hok
    cases hok
    exact hleads
  · rw [hr] at herror
    cases herror

/-! ### Courses -/

theorem Course.sound (h : Course p refinements p') (hp : p.Sound) :
    p'.Sound ∧ p'.store = p.store ∧
      p'.next.index = p.next.index + sumBy Refinement.created refinements := by
  induction h with
  | stay p => exact ⟨hp, rfl, rfl⟩
  | @look p _ _ id _ ih =>
    rw [snd_applicableRules] at ih
    exact ih (hp.remember id)
  | request r hr _ ih =>
    have hleads := hp.leads_of_request hr
    obtain ⟨hsound, hstore, hnext⟩ := ih hleads.sound
    refine ⟨hsound, hstore.trans hleads.store, ?_⟩
    rw [hnext, hleads.next, sumBy_cons]
    omega

/-- **The run lemma**: a relation between open sequents that effects can be put in front of holds of
every course. -/
theorem Course.lift {s : Store} {R : List Sequent → List Refinement → List Sequent → Prop}
    (hstay : ∀ qs, R qs [] qs)
    (heffect : ∀ {qs qs' qs'' refinement refinements}, Effect s qs refinement qs' →
      R qs' refinements qs'' → R qs (refinement :: refinements) qs'')
    (h : Course p refinements p') (hp : p.Sound) (hs : p.store = s) :
    R p.sequents refinements p'.sequents := by
  induction h with
  | stay p => exact hstay p.sequents
  | @look p _ _ id _ ih =>
    rw [snd_applicableRules] at ih
    rw [← sequents_remember p id]
    exact ih (hp.remember id) hs
  | request r hr _ ih =>
    have hleads := hp.leads_of_request hr
    exact heffect (hs ▸ hleads.effect) (ih hleads.sound (hleads.store.trans hs))

/-! ### Truth -/

theorem Effect.forall_holds_iff {s : Store} {qs qs' : List Sequent} (h : Effect s qs refinement qs')
    (α : Assignment) :
    (∀ q ∈ qs, q.Holds (s.eval α)) ↔ ∀ q ∈ qs', q.Holds (s.eval α) := by
  cases h with
  | nothing => rfl
  | closed before after hax =>
    simp only [List.forall_mem_append, List.forall_mem_cons]
    rw [and_iff_right (Sequent.holds_of_isAxiom s α hax)]
  | expanded before after hinfers =>
    simp only [List.forall_mem_append, List.forall_mem_cons, hinfers.holds_iff α]
    rw [and_assoc, and_comm (b := ∀ q ∈ after, _)]

/-- **The open sequents stand and fall with those at the start.** -/
theorem Course.forall_holds_iff (h : Course p refinements p') (hp : p.Sound) (α : Assignment) :
    (∀ q ∈ p.sequents, q.Holds (p.store.eval α)) ↔
      ∀ q ∈ p'.sequents, q.Holds (p.store.eval α) :=
  h.lift (R := fun qs _ qs' =>
      (∀ q ∈ qs, q.Holds (p.store.eval α)) ↔ ∀ q ∈ qs', q.Holds (p.store.eval α))
    (fun _ => Iff.rfl) (fun heffect hrest => (heffect.forall_holds_iff α).trans hrest) hp rfl

/-- What was loaded stands and falls with the open goals. -/
theorem Course.holds_iff {problem : Sequent} (h : Course (p.loadSequent problem) refinements p')
    (hstore : p.store.WellFormed) (hproblem : p.store.OwnsSequent problem) (α : Assignment) :
    problem.Holds (p.store.eval α) ↔ ∀ goal ∈ p'.goals, goal.sequent.Holds (p.store.eval α) := by
  have hsequents := h.forall_holds_iff (sound_loadSequent hstore hproblem) α
  rw [sequents, sequents, List.forall_mem_map, List.forall_mem_map] at hsequents
  simpa [loadSequent] using hsequents

/-- A goal that no rule is applicable to fails under some assignment. -/
theorem exists_not_holds_of_stuck {s : Store} {q : Sequent} (h : q.applicableRules = []) :
    ∃ α : Assignment, ¬q.Holds (s.eval α) := by
  obtain ⟨hsat, hax⟩ := Sequent.applicableRules_eq_nil_iff.1 h
  obtain ⟨α, hα⟩ := q.exists_fails_of_saturated s hsat hax
  exact ⟨α, Sequent.not_holds_iff.2 hα⟩

/-- A proof without open goals proves what was loaded. -/
theorem Course.holds_of_complete {problem : Sequent}
    (h : Course (p.loadSequent problem) refinements p') (hstore : p.store.WellFormed)
    (hproblem : p.store.OwnsSequent problem) (hgoals : p'.goals = []) (α : Assignment) :
    problem.Holds (p.store.eval α) := by
  rw [h.holds_iff hstore hproblem α, hgoals]
  exact List.forall_mem_nil _

/-- A goal that no rule is applicable to refutes what was loaded. -/
theorem Course.exists_not_holds {problem : Sequent}
    (h : Course (p.loadSequent problem) refinements p') (hstore : p.store.WellFormed)
    (hproblem : p.store.OwnsSequent problem) {goal : Goal} (hgoal : goal ∈ p'.goals)
    (hrules : goal.sequent.applicableRules = []) :
    ∃ α : Assignment, ¬problem.Holds (p.store.eval α) := by
  obtain ⟨α, hα⟩ := exists_not_holds_of_stuck (s := p.store) hrules
  refine ⟨α, fun hholds => hα ?_⟩
  exact (h.holds_iff hstore hproblem α).1 hholds goal hgoal

theorem isComplete_iff : p.isComplete = true ↔ p.goals = [] :=
  List.isEmpty_iff

/-- **Refining preserves the problem**, whatever a user does.  At any time the loaded sequent holds
under an assignment if and only if all open goals do, and no request is refused unless goal numbers
run out.  So a complete proof proves the loaded sequent, and an exhausted one refutes it and is
never completed. -/
theorem refining_preserves_problem {problem : Sequent} (hs : p.store.Reachable)
    (hproblem : p.store.OwnsSequent problem) (h : Course (p.loadSequent problem) refinements p') :
    (∀ r : Request, (∃ refinement next, p'.request r = .ok (refinement, next)) ∨
        p'.request r = .error .idTooLarge) ∧
      (∀ α : Assignment, problem.Holds (p.store.eval α) ↔
        ∀ goal ∈ p'.goals, goal.sequent.Holds (p.store.eval α)) ∧
      (p'.isComplete = true → ∀ α : Assignment, problem.Holds (p.store.eval α)) ∧
      (p'.isExhausted.1 = true →
        (∃ α : Assignment, ¬problem.Holds (p.store.eval α)) ∧
        ∀ more p'', Course p' more p'' ∨ Course p'.isExhausted.2 more p'' →
          p''.isComplete = false) := by
  have hwf := hs.wellFormed
  have hp' := (h.sound (sound_loadSequent hwf hproblem)).1
  refine ⟨fun r => ?_, h.holds_iff hwf hproblem, fun hcomplete => ?_, fun hexhausted => ?_⟩
  · rcases hp'.request_cases r with ⟨refinement, next, hok, -⟩ | ⟨herror, -⟩
    · exact .inl ⟨refinement, next, hok⟩
    · exact .inr herror
  · exact h.holds_of_complete hwf hproblem (isComplete_iff.1 hcomplete)
  · obtain ⟨goal, hgoal, hrules⟩ := hp'.fst_isExhausted_iff.1 hexhausted
    obtain ⟨α, hα⟩ := h.exists_not_holds hwf hproblem hgoal hrules
    refine ⟨⟨α, hα⟩, fun more p'' hmore => Bool.eq_false_iff.2 fun hcomplete => hα ?_⟩
    have hcourse : Course p' more p'' := by
      rcases hmore with hmore | hmore
      · exact hmore
      · exact (course_isExhaustedAmong p' p'.ids).trans hmore
    -- if the proof could be completed after all, the problem would hold
    exact (h.trans hcourse).holds_of_complete hwf hproblem (isComplete_iff.1 hcomplete) α

/-- Stale requests on `A -> A => A`, then its one rule and the axiom among the premises.  The other
premise cannot be proved, and so neither can the sequent. -/
theorem refining_preserves_self_implication :
    let problem : SequentExpr := ⟨[.binary .implies (.atom "A") (.atom "A")], [.atom "A"]⟩
    let built := problem.build (.ofPolicy {})
    let one : GoalId := ⟨1, by decide⟩
    let two : GoalId := ⟨2, by decide⟩
    ∃ p', Course ((ofStore built.2).loadSequent built.1)
        [.nothingToDo, .nothingToDo, .expanded [one, two], .closed] p' ∧
      p'.isExhausted.1 = true ∧ (∃ α : Assignment, ¬built.1.Holds (built.2.eval α)) ∧
      ∀ more p'', Course p' more p'' → p''.isComplete = false := by
  intro problem built one two
  let start := (ofStore built.2).loadSequent built.1
  let rule : Rule := .logical .left .implies ⟨3, .compound (.bin .implies)⟩
  let made : List Request :=
    [.refine two rule, .refine .zero .ax, .refine .zero rule, .refineAt ⟨two, 0, by decide⟩]
  have hmade : (start.requests made).toOption.map (fun rest => (rest.1, rest.2.isExhausted.1)) =
      some ([.nothingToDo, .nothingToDo, .expanded [one, two], .closed], true) := by
    decide +kernel
  obtain ⟨p', hcourse, hexhausted⟩ := exists_course_of_requests (·.isExhausted.1) hmade
  have hpolicy := Store.reachable_ofPolicy {}
  obtain ⟨hgrows, howns⟩ := Store.grows_build_sequent hpolicy.wellFormed problem
  obtain ⟨-, -, -, hrefuted⟩ :=
    refining_preserves_problem (p := ofStore built.2) (hpolicy.grow hgrows) howns hcourse
  obtain ⟨hfails, hnever⟩ := hrefuted hexhausted
  exact ⟨p', hcourse, hexhausted, hfails, fun more p'' hmore => hnever more p'' (.inl hmore)⟩

end ProofState

end SequentCalculus
