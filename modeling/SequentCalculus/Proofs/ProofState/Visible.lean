import SequentCalculus.Proofs.ProofState.Calls

/-!
# What can be seen of a proof state

To look at the rules of a goal, or to ask for a refinement that comes to nothing, changes a proof
state: the rules of the goal are remembered.  Nobody can tell.  `forget` drops whatever is
remembered, and two states that differ in nothing else give the same answers, with states that again
differ in nothing else (`visible_call_of_forget_eq`).  This rests on `Recalls`: what is remembered
is what would be worked out, which every call keeps, whatever it is asked for.

So calls that change nothing else can be deleted from a session (`calls_of_prunes`), and those that
were made after them are answered as before.
-/

namespace SequentCalculus

/-- Whether an answer is all that came of a call: it was a question, or it failed. -/
def Answer.isIdle : Answer → Bool
  | .loaded (some _) => true
  | .refined .nothingToDo => true
  | .goal _ => true
  | .rules _ => true
  | .rule _ => true
  | .exhausted _ => true
  | .loaded none => false
  | .dropped => false
  | .refined .closed => false
  | .refined (.expanded _) => false
  | .interned _ => false

/-- Some of the idle calls are deleted from a session. -/
inductive Prunes : List (Call × Answer) → List (Call × Answer) → Prop
  | nil : Prunes [] []
  | keep {entry : Call × Answer} {log kept : List (Call × Answer)} (h : Prunes log kept) :
      Prunes (entry :: log) (entry :: kept)
  | drop {entry : Call × Answer} {log kept : List (Call × Answer)}
      (hidle : entry.2.isIdle = true) (h : Prunes log kept) : Prunes (entry :: log) kept

/-- The goal with nothing remembered. -/
def Goal.forget (goal : Goal) : Goal :=
  { goal with rules := none }

namespace ProofState

variable {p p' q : ProofState} {id : GoalId} {rule : Rule} {refinement : Refinement}

/-- The state with nothing remembered. -/
def forget (p : ProofState) : ProofState :=
  { p with goals := p.goals.map Goal.forget }

/-- What can be seen of a result. -/
def visible {α : Type} (result : Except Fault (α × ProofState)) :
    Except Fault (α × ProofState) :=
  result.map fun r => (r.1, r.2.forget)

/-- What is remembered is what would be worked out. -/
def Recalls (p : ProofState) : Prop :=
  ∀ goal ∈ p.goals, goal.applicable = goal.sequent.applicableRules

/-- An answer is seen in full. -/
theorem map_fst_visible {α : Type} (result : Except Fault (α × ProofState)) :
    (visible result).map (·.1) = result.map (·.1) := by
  cases result <;> rfl

/-! ### Forgetting -/

@[simp] theorem forget_forget (p : ProofState) : p.forget.forget = p.forget := by
  simp [forget, Goal.forget]

@[simp] theorem forget_remember (p : ProofState) (id : GoalId) :
    (p.remember id).forget = p.forget := by
  have hgoal : ∀ goal : Goal,
      (if goal.id = id then goal.remember else goal).forget = goal.forget := by
    intro goal
    split <;> rfl
  simp [forget, remember, hgoal]

@[simp] theorem forget_close (p : ProofState) (id : GoalId) :
    (p.close id).forget = p.forget.close id := by
  simp [forget, close, Goal.forget, List.filter_map, Function.comp_def]

theorem find?_forget (p : ProofState) (id : GoalId) :
    p.forget.find? id = (p.find? id).map Goal.forget := by
  simp [forget, find?, Goal.forget, List.find?_map, Function.comp_def]

@[simp] theorem goal?_forget (p : ProofState) (id : GoalId) : p.forget.goal? id = p.goal? id := by
  unfold goal?
  rw [find?_forget, Option.map_map]
  rfl

@[simp] theorem ids_forget (p : ProofState) : p.forget.ids = p.ids := by
  simp [forget, ids, Goal.forget]

@[simp] theorem forget_snd_applicableRules (p : ProofState) (id : GoalId) :
    (p.applicableRules id).2.forget = p.forget := by
  rw [snd_applicableRules, forget_remember]

@[simp] theorem forget_snd_isExhaustedAmong (p : ProofState) (ids : List GoalId) :
    (p.isExhaustedAmong ids).2.forget = p.forget := by
  induction ids generalizing p with
  | nil => rfl
  | cons id ids ih =>
    rw [isExhaustedAmong]
    split
    · exact forget_snd_applicableRules p id
    · exact (ih _).trans (forget_snd_applicableRules p id)

theorem store_eq_of_forget_eq (h : p.forget = q.forget) : p.store = q.store := by
  have hstore : p.forget.store = q.forget.store := congrArg ProofState.store h
  exact hstore

theorem next_eq_of_forget_eq (h : p.forget = q.forget) : p.next = q.next := by
  have hnext : p.forget.next = q.forget.next := congrArg ProofState.next h
  exact hnext

/-- States that look the same have the same goals under the same numbers. -/
theorem goals_eq_of_forget_eq (h : p.forget = q.forget) :
    p.goals.map (fun goal => (goal.id, goal.sequent)) =
      q.goals.map fun goal => (goal.id, goal.sequent) := by
  have hgoals : p.goals.map Goal.forget = q.goals.map Goal.forget := congrArg ProofState.goals h
  have hseen := congrArg (List.map fun goal => (goal.id, goal.sequent)) hgoals
  rwa [List.map_map, List.map_map] at hseen

/-- Results that look the same have the same answer, with states that look the same. -/
theorem visible_eq_ok {α : Type} {result result' : Except Fault (α × ProofState)} {a : α}
    (h : visible result = visible result') (hok : result = .ok (a, p)) :
    ∃ q, result' = .ok (a, q) ∧ q.forget = p.forget := by
  subst hok
  cases result' with
  | error fault => cases h
  | ok r =>
    obtain ⟨hanswer, hstate⟩ := Prod.mk.inj (Except.ok.inj h)
    have hsame : a = r.1 := hanswer
    exact ⟨r.2, by rw [hsame], hstate.symm⟩

/-! ### Remembering what would be worked out -/

theorem Sound.recalls (hp : p.Sound) : p.Recalls :=
  hp.applicable

/-- Where nothing is remembered, everything is worked out. -/
theorem recalls_forget (p : ProofState) : p.forget.Recalls := by
  intro g hg
  obtain ⟨goal, -, rfl⟩ := List.mem_map.1 hg
  rfl

theorem Recalls.remember (hp : p.Recalls) (id : GoalId) : (p.remember id).Recalls := by
  intro g hg
  obtain ⟨goal, hgoal, -, hsequent, happlicable⟩ := mem_remember hg
  rw [happlicable, hsequent]
  exact hp goal hgoal

theorem Recalls.applicableRules (hp : p.Recalls) (id : GoalId) :
    (p.applicableRules id).2.Recalls := by
  rw [snd_applicableRules]
  exact hp.remember id

theorem Recalls.close (hp : p.Recalls) (id : GoalId) : (p.close id).Recalls :=
  fun goal hgoal => hp goal (List.mem_filter.1 hgoal).1

/-- Nothing is remembered of a goal that has just come up. -/
theorem Recalls.openGoals (hp : p.Recalls) {qs : List Sequent} {children : List GoalId}
    (h : p.openGoals qs = .ok (children, p')) : p'.Recalls := by
  induction qs generalizing p children with
  | nil =>
    cases h
    exact hp
  | cons q qs ih =>
    rw [ProofState.openGoals] at h
    split at h
    · cases h
    · rename_i next hnext
      split at h
      · cases h
      · rename_i ids last hopen
        cases h
        refine ih ?_ hopen
        exact List.forall_mem_append.2 ⟨hp, by simp [Goal.applicable]⟩

/-- What a refinement leaves of what is remembered; one that comes to nothing changes nothing
else. -/
theorem Recalls.refine (hp : p.Recalls) (h : p.refine id rule = .ok (refinement, p')) :
    p'.Recalls ∧ (refinement = .nothingToDo → p'.forget = p.forget) := by
  unfold ProofState.refine at h
  split at h
  · -- the goal is not open
    cases h
    exact ⟨hp, fun _ => rfl⟩
  · split at h
    · -- the rule is applicable, and the goal goes away with what is remembered of it
      unfold replace at h
      split at h
      · cases h
      · cases h
      · cases h
        exact ⟨(hp.remember id).close _, by simp⟩
      · split at h
        · cases h
        · rename_i hopen
          cases h
          exact ⟨((hp.remember id).close _).openGoals hopen, by simp⟩
    · -- the rule is not applicable, and the goal stays
      cases h
      exact ⟨hp.remember id, fun _ => forget_remember p id⟩

theorem Recalls.isExhaustedAmong (hp : p.Recalls) (ids : List GoalId) :
    (p.isExhaustedAmong ids).2.Recalls := by
  induction ids generalizing p with
  | nil => exact hp
  | cons id ids ih =>
    rw [ProofState.isExhaustedAmong]
    split
    · exact hp.applicableRules id
    · exact ih (hp.applicableRules id)

/-- **Every call keeps to what would be worked out**, and an idle one changes nothing that can be
seen. -/
theorem Recalls.call (hp : p.Recalls) {c : Call} {answer : Answer}
    (h : p.call c = .ok (answer, p')) :
    p'.Recalls ∧ (answer.isIdle = true → p'.forget = p.forget) := by
  have hrefine {id : GoalId} {rule : Rule} (h : (p.refine id rule).map
      (fun refined => (Answer.refined refined.1, refined.2)) = .ok (answer, p')) :
      p'.Recalls ∧ (answer.isIdle = true → p'.forget = p.forget) := by
    cases hrefined : p.refine id rule with
    | error fault =>
      rw [hrefined] at h
      cases h
    | ok refined =>
      obtain ⟨refinement, next⟩ := refined
      rw [hrefined] at h
      cases h
      obtain ⟨hrecalls, hnothing⟩ := hp.refine hrefined
      refine ⟨hrecalls, fun hidle => hnothing ?_⟩
      cases refinement with
      | nothingToDo => rfl
      | closed => cases hidle
      | expanded => cases hidle
  cases c with
  | load text =>
    rw [ProofState.call] at h
    split at h
    · rename_i loaded hload
      cases h
      obtain ⟨e, -, rfl⟩ := load_eq_ok hload
      refine ⟨?_, fun hidle => absurd hidle Bool.false_ne_true⟩
      simp [Recalls, loadSequent, Goal.applicable]
    · cases h
      exact ⟨hp, fun _ => rfl⟩
  | reset =>
    cases h
    exact ⟨List.forall_mem_nil _, fun hidle => absurd hidle Bool.false_ne_true⟩
  | goal id =>
    cases h
    exact ⟨hp, fun _ => rfl⟩
  | applicableRules id =>
    cases h
    exact ⟨hp.applicableRules id, fun _ => forget_snd_applicableRules p id⟩
  | ruleAt address =>
    cases h
    exact ⟨hp.applicableRules address.goal, fun _ => forget_snd_applicableRules p address.goal⟩
  | refine id rule => exact hrefine h
  | refineAt address =>
    rw [ProofState.call, refineAt_eq] at h
    cases hrule : (p.ruleAt address).1 with
    | none =>
      -- no rule stands at the address
      rw [hrule] at h
      cases h
      exact ⟨hp.remember address.goal, fun _ => forget_remember p address.goal⟩
    | some rule =>
      rw [hrule] at h
      exact hrefine h
  | isExhausted =>
    cases h
    exact ⟨hp.isExhaustedAmong p.ids, fun _ => forget_snd_isExhaustedAmong p p.ids⟩
  | intern interning =>
    rw [ProofState.call] at h
    cases hbuilt : p.store.interning interning with
    | error fault =>
      rw [hbuilt] at h
      cases h
    | ok built =>
      rw [hbuilt] at h
      cases h
      exact ⟨hp, fun hidle => absurd hidle Bool.false_ne_true⟩

/-! ### Looking -/

theorem Recalls.fst_applicableRules_forget (hp : p.Recalls) (id : GoalId) :
    (p.forget.applicableRules id).1 = (p.applicableRules id).1 := by
  unfold ProofState.applicableRules
  rw [find?_forget]
  cases hfind : p.find? id with
  | none => rfl
  | some goal => exact congrArg some (hp goal (List.mem_of_find?_eq_some hfind)).symm

theorem Recalls.fst_ruleAt_forget (hp : p.Recalls) (address : Address) :
    (p.forget.ruleAt address).1 = (p.ruleAt address).1 := by
  simp only [ruleAt, hp.fst_applicableRules_forget]

/-- Whether a state is exhausted does not depend on what is remembered.  Two states are followed,
since more and more is remembered on the way. -/
theorem fst_isExhaustedAmong_of_forget_eq (hp : p.Recalls) (hq : q.Recalls)
    (h : p.forget = q.forget) (ids : List GoalId) :
    (p.isExhaustedAmong ids).1 = (q.isExhaustedAmong ids).1 := by
  induction ids generalizing p q with
  | nil => rfl
  | cons id ids ih =>
    have hrules : (p.applicableRules id).1 = (q.applicableRules id).1 := by
      rw [← hp.fst_applicableRules_forget, h, hq.fst_applicableRules_forget]
    rw [isExhaustedAmong, isExhaustedAmong, hrules]
    split
    · rfl
    · exact ih (hp.applicableRules id) (hq.applicableRules id) (by simpa using h)

/-! ### Refining -/

/-- Goals come up in the same way whatever is remembered of the others. -/
theorem openGoals_forget (p : ProofState) (qs : List Sequent) :
    p.forget.openGoals qs = visible (p.openGoals qs) := by
  induction qs generalizing p with
  | nil => rfl
  | cons q qs ih =>
    have hnext : p.forget.next = p.next := rfl
    rw [openGoals, openGoals, hnext]
    cases GoalId.ofNat (p.next.index + 1) with
    | error fault => rfl
    | ok next =>
      let opened : ProofState := { p with goals := p.goals ++ [⟨p.next, q, none⟩], next := next }
      have hopened : ({ p.forget with
          goals := p.forget.goals ++ [⟨p.next, q, none⟩], next := next } : ProofState) =
          opened.forget := by
        simp [opened, forget, Goal.forget]
      dsimp only
      rw [hopened, ih opened]
      cases opened.openGoals qs <;> rfl

theorem replace_forget (p : ProofState) (goal : Goal) (rule : Rule) :
    p.forget.replace goal.forget rule = visible (p.replace goal rule) := by
  have hstore : p.forget.store = p.store := rfl
  have hsequent : goal.forget.sequent = goal.sequent := rfl
  have hclose : p.forget.close goal.forget.id = (p.close goal.id).forget :=
    (forget_close p goal.id).symm
  unfold replace
  rw [hstore, hsequent, hclose]
  cases rule.apply p.store goal.sequent with
  | error fault => rfl
  | ok application =>
    cases application with
    | failed => rfl
    | closed => rfl
    | subgoals subgoals =>
      dsimp only
      rw [openGoals_forget]
      cases (p.close goal.id).openGoals subgoals <;> rfl

/-- **A refinement comes to the same whatever is remembered.** -/
theorem Recalls.visible_refine (hp : p.Recalls) (id : GoalId) (rule : Rule) :
    visible (p.refine id rule) = visible (p.forget.refine id rule) := by
  unfold ProofState.refine
  rw [find?_forget]
  cases hfind : p.find? id with
  | none =>
    show Except.ok (Refinement.nothingToDo, p.forget) = .ok (.nothingToDo, p.forget.forget)
    rw [forget_forget]
  | some goal =>
    have happlicable : goal.forget.applicable = goal.applicable :=
      (hp goal (List.mem_of_find?_eq_some hfind)).symm
    show visible (if _ then _ else _) = visible (if _ then _ else _)
    rw [happlicable]
    -- the goal offers the same rules in both states, so both take the same branch
    split
    · have hforget : goal.forget.forget = goal.forget := rfl
      rw [← replace_forget, ← replace_forget, forget_remember, forget_remember, forget_forget,
        hforget]
    · show Except.ok (Refinement.nothingToDo, (p.remember id).forget) =
        .ok (.nothingToDo, (p.forget.remember id).forget)
      rw [forget_remember, forget_remember, forget_forget]

/-! ### Calls -/

theorem visible_map {α β : Type} (f : α → β) (result : Except Fault (α × ProofState)) :
    visible (result.map fun r => (f r.1, r.2)) = (visible result).map fun r => (f r.1, r.2) := by
  cases result <;> rfl

/-- **No answer tells what is remembered.** -/
theorem Recalls.visible_call (hp : p.Recalls) (c : Call) :
    visible (p.call c) = visible (p.forget.call c) := by
  have hrefine (id : GoalId) (rule : Rule) :
      visible ((p.refine id rule).map fun refined => (Answer.refined refined.1, refined.2)) =
        visible ((p.forget.refine id rule).map
          fun refined => (Answer.refined refined.1, refined.2)) := by
    rw [visible_map, visible_map, hp.visible_refine]
  cases c with
  | load text =>
    have hload : p.forget.load text = p.load text := rfl
    rw [ProofState.call, ProofState.call, hload]
    cases p.load text with
    | ok loaded => rfl
    | error error =>
      exact congrArg (fun next => Except.ok (Answer.loaded (some error), next))
        (forget_forget p).symm
  | reset => rfl
  | goal id =>
    rw [ProofState.call, ProofState.call, goal?_forget]
    exact congrArg (fun next => Except.ok (Answer.goal (p.goal? id), next)) (forget_forget p).symm
  | applicableRules id =>
    rw [ProofState.call, ProofState.call, hp.fst_applicableRules_forget]
    simp [visible, Except.map]
  | ruleAt address =>
    rw [ProofState.call, ProofState.call, hp.fst_ruleAt_forget]
    simp [visible, Except.map, ruleAt]
  | refine id rule => exact hrefine id rule
  | refineAt address =>
    rw [ProofState.call, ProofState.call, refineAt_eq, refineAt_eq, hp.fst_ruleAt_forget]
    cases (p.ruleAt address).1 with
    | none => simp [visible, Except.map]
    | some rule => exact hrefine address.goal rule
  | isExhausted =>
    have hsame :=
      fst_isExhaustedAmong_of_forget_eq hp (recalls_forget p) (forget_forget p).symm p.ids
    rw [ProofState.call, ProofState.call]
    simp [visible, Except.map, isExhausted, hsame]
  | intern interning =>
    rw [ProofState.call, ProofState.call]
    show visible ((p.store.interning interning).map _) =
      visible ((p.store.interning interning).map _)
    cases p.store.interning interning with
    | error fault => rfl
    | ok built => simp [visible, Except.map, forget, Goal.forget]

/-- States that look the same cannot be told apart by a call. -/
theorem visible_call_of_forget_eq (hp : p.Recalls) (hq : q.Recalls) (h : p.forget = q.forget)
    (c : Call) : visible (p.call c) = visible (q.call c) := by
  rw [hp.visible_call, h, ← hq.visible_call]

/-! ### Deleting calls -/

/-- **The run lemma**: a session from which idle calls are deleted gives the other answers as
before, from any state that looks the same, and ends in a state that looks the same. -/
theorem calls_of_prunes (hp : p.Recalls) (hq : q.Recalls) (h : q.forget = p.forget)
    {cs : List Call} {log kept : List (Call × Answer)} (hcalls : p.calls cs = .ok (log, p'))
    (hprunes : Prunes log kept) : ∃ q', q.calls (kept.map (·.1)) = .ok (kept, q') ∧
      p'.Recalls ∧ q'.Recalls ∧ q'.forget = p'.forget := by
  induction hprunes generalizing p q cs with
  | nil =>
    cases cs with
    | nil =>
      cases hcalls
      exact ⟨q, rfl, hp, hq, h⟩
    | cons c cs =>
      obtain ⟨_, _, _, -, -, hlog⟩ := calls_cons_eq_ok hcalls
      cases hlog
  | @keep entry log kept _ ih =>
    cases cs with
    | nil => cases hcalls
    | cons c cs =>
      obtain ⟨answer, next, rest, hcall, hrest, hlog⟩ := calls_cons_eq_ok hcalls
      obtain ⟨rfl, rfl⟩ := List.cons.inj hlog
      -- the call is made in both sessions, with the same answer
      obtain ⟨next', hcall', hnext⟩ :=
        visible_eq_ok (visible_call_of_forget_eq hp hq h.symm c) hcall
      obtain ⟨q', hq', hrecalls⟩ := ih (hp.call hcall).1 (hq.call hcall').1 hnext hrest
      refine ⟨q', ?_, hrecalls⟩
      rw [List.map_cons, calls]
      simp only [hcall', hq', Except.map]
  | @drop entry log kept hidle _ ih =>
    cases cs with
    | nil => cases hcalls
    | cons c cs =>
      obtain ⟨answer, next, rest, hcall, hrest, hlog⟩ := calls_cons_eq_ok hcalls
      obtain ⟨rfl, rfl⟩ := List.cons.inj hlog
      -- the call is made in one session only, and the state looks as it did before
      obtain ⟨hrecalls, hsame⟩ := hp.call hcall
      exact ih hrecalls hq (h.trans (hsame hidle).symm) hrest

/-- A refinement comes to nothing for want of the goal or of the rule. -/
theorem Sound.refine_eq_nothingToDo_iff (hp : p.Sound) :
    (∃ p', p.refine id rule = .ok (.nothingToDo, p')) ↔
      id ∉ p.ids ∨ ∃ goal ∈ p.goals, goal.id = id ∧ rule ∉ goal.sequent.applicableRules := by
  constructor
  · rintro ⟨p', hrefine⟩
    by_cases hopen : id ∈ p.ids
    · obtain ⟨goal, hgoal, rfl⟩ := List.mem_map.1 hopen
      refine .inr ⟨goal, hgoal, rfl, fun hrule => ?_⟩
      rcases hp.refines_or_outOfNumbers goal.id rule with ⟨_, _, hok, hrefines⟩ | ⟨herror, -⟩
      · rw [hrefine] at hok
        cases hok
        cases hrefines with
        | nothing hnone => exact hnone goal hgoal rfl hrule
      · rw [hrefine] at herror
        cases herror
    · exact .inl hopen
  · rintro (hclosed | ⟨goal, hgoal, rfl, hrule⟩)
    · exact ⟨_, hp.refine_eq_nothingToDo fun goal hgoal hid =>
        absurd (List.mem_map.2 ⟨goal, hgoal, hid⟩) hclosed⟩
    · refine ⟨_, hp.refine_eq_nothingToDo fun other hother hid => ?_⟩
      rwa [hp.eq_of_id_eq hother hgoal hid]

/-- An applicable rule does something to an open goal. -/
theorem Sound.refine_ne_nothingToDo (hp : p.Sound) {goal : Goal} (hgoal : goal ∈ p.goals)
    (hid : goal.id = id) (hrule : rule ∈ goal.sequent.applicableRules) :
    p.refine id rule ≠ .ok (.nothingToDo, p') := by
  intro hrefine
  rcases hp.refine_eq_nothingToDo_iff.1 ⟨p', hrefine⟩ with hclosed | ⟨other, hother, hsame, hnone⟩
  · exact hclosed (List.mem_map.2 ⟨goal, hgoal, hid⟩)
  · rw [hp.eq_of_id_eq hother hgoal (hsame.trans hid.symm)] at hnone
    exact hnone hrule

/-- **Idle calls are invisible.**  Whichever of its failed loads, refinements that came to nothing
and questions are deleted from a session, the other calls are answered as before, and the store, the
next number and the goals with their numbers are the same at the end.  What is asked then is
answered alike, too.  A load fails if and only if the text does not read as a sequent, and a
refinement comes to nothing if and only if the goal is not open or the rule not applicable to its
sequent. -/
theorem idle_calls_are_invisible {given : List GoalId} (h : Reached p given) :
    (∀ cs log kept p', p.calls cs = .ok (log, p') → Prunes log kept →
      ∃ q, p.calls (kept.map (·.1)) = .ok (kept, q) ∧ q.store = p'.store ∧ q.next = p'.next ∧
        q.goals.map (fun goal => (goal.id, goal.sequent)) =
          p'.goals.map (fun goal => (goal.id, goal.sequent)) ∧
        ∀ c, (q.call c).map (·.1) = (p'.call c).map (·.1)) ∧
    (∀ text error, p.load text = .error error ↔ SequentExpr.read text = .error error) ∧
    ∀ id rule, (∃ p', p.refine id rule = .ok (.nothingToDo, p')) ↔
      id ∉ p.ids ∨ ∃ goal ∈ p.goals, goal.id = id ∧ rule ∉ goal.sequent.applicableRules := by
  obtain ⟨-, hp⟩ := h.sound
  refine ⟨fun cs log kept p' hcalls hprunes => ?_, fun text error => load_eq_error_iff,
    fun id rule => hp.refine_eq_nothingToDo_iff⟩
  obtain ⟨q, hq, hp', hrecalls, hsame⟩ := calls_of_prunes hp.recalls hp.recalls rfl hcalls hprunes
  refine ⟨q, hq, store_eq_of_forget_eq hsame, next_eq_of_forget_eq hsame,
    goals_eq_of_forget_eq hsame, fun c => ?_⟩
  have hanswer := congrArg (Except.map (·.1)) (visible_call_of_forget_eq hrecalls hp' hsame c)
  rwa [map_fst_visible, map_fst_visible] at hanswer

/-- A proof of `A -> A => A` is begun, with questions about its goal, a text that is no sequent and
a rule that is not applicable.  Without them the goal is refined in the same way. -/
theorem idle_calls_are_invisible_of_self_implication :
    let start := ofStore (.ofPolicy {})
    let rule : Rule := .logical .left .implies ⟨3, .compound (.bin .implies)⟩
    let loaded : Call × Answer := (.load "A -> A => A", .loaded none)
    let refined : Call × Answer :=
      (.refine .zero rule, .refined (.expanded [⟨1, by decide⟩, ⟨2, by decide⟩]))
    ∃ p' q, start.calls [.load "A -> A => A", .applicableRules .zero, .load "B )",
          .refine .zero .ax, .isExhausted, .refine .zero rule] =
        .ok ([loaded, (.applicableRules .zero, .rules (some [rule])),
          (.load "B )", .loaded (some (.malformed "B )"))),
          (.refine .zero .ax, .refined .nothingToDo), (.isExhausted, .exhausted false),
          refined], p') ∧
      start.calls [.load "A -> A => A", .refine .zero rule] = .ok ([loaded, refined], q) ∧
      q.store = p'.store ∧ q.next = p'.next ∧
      q.goals.map (fun goal => (goal.id, goal.sequent)) =
        p'.goals.map (fun goal => (goal.id, goal.sequent)) := by
  intro start rule loaded refined
  let log : List (Call × Answer) :=
    [loaded, (.applicableRules .zero, .rules (some [rule])),
      (.load "B )", .loaded (some (.malformed "B )"))), (.refine .zero .ax, .refined .nothingToDo),
      (.isExhausted, .exhausted false), refined]
  have hlog : (start.calls (log.map (·.1))).toOption.map (·.1) = some log := by
    decide +kernel
  obtain ⟨p', hcalls⟩ := exists_calls_eq_ok hlog
  have hprunes : Prunes log [loaded, refined] :=
    .keep (.drop rfl (.drop rfl (.drop rfl (.drop rfl (.keep .nil)))))
  obtain ⟨hdelete, -⟩ := idle_calls_are_invisible (.start (Store.reachable_ofPolicy {}))
  obtain ⟨q, hq, hstore, hnext, hgoals, -⟩ := hdelete _ log _ p' hcalls hprunes
  exact ⟨p', q, hcalls, hq, hstore, hnext, hgoals⟩

end ProofState

end SequentCalculus
