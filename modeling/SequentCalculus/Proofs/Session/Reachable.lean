import SequentCalculus.Proofs.ProofState.Course
import SequentCalculus.Session

/-!
# The states of a session

Whatever a command does, it does one of three things to the proof state (`Moves`): it makes requests
to refine and looks at rules, or it drops all goals, or it loads a sequent.  All of them keep the
invariant of proof states and leave a store that can be reached, so that both hold at any time in a
session (`Reachable.sound`).
-/

namespace SequentCalculus.Session

open ProofState

variable {p p' : ProofState}

/-- **The states of a session**: it starts with a store that can be reached, and goes on from what a
line leaves. -/
inductive Reachable : ProofState → Prop
  | start {s : Store} (hs : s.Reachable) : Reachable (ofStore s)
  | execute {p : ProofState} {line : String} {reply : Reply} (hp : Reachable p)
      (h : execute p line = .ok reply) : Reachable reply.state

/-- What a command can do to the state. -/
inductive Moves (p : ProofState) : ProofState → Prop
  | course {refinements : List Refinement} {p' : ProofState} (h : Course p refinements p') :
      Moves p p'
  | reset : Moves p p.reset
  | load {text : String} {p' : ProofState} (h : p.load text = .ok p') : Moves p p'

/-! ### Commands -/

theorem course_goalRules (p : ProofState) (id : GoalId) : Course p [] (goalRules p id).2 := by
  unfold goalRules
  dsimp only
  split <;> exact .look id (.stay _)

theorem course_goalsWithRules (p : ProofState) (ids : List GoalId) :
    Course p [] (goalsWithRules p ids).2 := by
  induction ids generalizing p with
  | nil => exact .stay p
  | cons id ids ih => exact (course_goalRules p id).trans (ih (goalRules p id).2)

theorem course_rules (p : ProofState) (argument : List Char) :
    Course p [] (rules p argument).2 := by
  unfold rules
  split
  · exact course_goalsWithRules p p.ids
  · split
    · exact course_goalRules p _
    · exact .stay p

theorem course_refineBy {id : GoalId} {rule : Rule} {refined : Refinement × Outcome}
    (h : refineBy p id rule = .ok refined) : Course p [refined.1] refined.2.2 := by
  unfold refineBy at h
  split at h
  · cases h
  · rename_i refinement next hrefine
    obtain rfl := Except.ok.inj h
    exact .request (.refine id rule) hrefine (.stay next)

theorem course_refine {argument : List Char} {outcome : Outcome}
    (h : refine p argument = .ok outcome) : ∃ refinements, Course p refinements outcome.2 := by
  unfold refine at h
  split at h
  · obtain rfl := Except.ok.inj h
    exact ⟨[], .stay p⟩
  · rename_i address _
    split at h
    · obtain rfl := Except.ok.inj h
      exact ⟨[], .stay p⟩
    · -- the rule is looked up, and then the goal is refined by it
      have hlook {refinements p'} : Course (p.ruleAt address).2 refinements p' →
          Course p refinements p' :=
        .look address.goal
      split at h
      · rename_i hrule
        obtain rfl := Except.ok.inj h
        rw [hrule] at hlook
        exact ⟨[], hlook (.stay _)⟩
      · rename_i rule next hrule
        rw [hrule] at hlook
        cases hrefine : refineBy next address.goal rule with
        | error fault =>
          rw [hrefine] at h
          cases h
        | ok refined =>
          rw [hrefine] at h
          obtain rfl := Except.ok.inj h
          exact ⟨[refined.1], hlook (course_refineBy hrefine)⟩

theorem course_auto {outcome : Outcome} (h : auto p = .ok outcome) :
    ∃ refinements, Course p refinements outcome.2 := by
  fun_induction auto p generalizing outcome with
  | case1 p hfirst =>
    obtain rfl := Except.ok.inj h
    exact ⟨[], .stay p⟩
  | case2 p id hfirst hrules =>
    obtain rfl := Except.ok.inj h
    exact ⟨[], .look id (.stay _)⟩
  | case3 => cases h
  | case4 p id hfirst rule others hrules next hrefine =>
    obtain rfl := Except.ok.inj h
    exact ⟨_, .look id (.request (.refine id rule) hrefine (.stay _))⟩
  | case5 p id hfirst rule others hrules refinement next hrefine written hdone hlt =>
    rename_i ih
    cases hauto : auto next with
    | error fault =>
      rw [hauto] at h
      cases h
    | ok rest =>
      rw [hauto] at h
      obtain rfl := Except.ok.inj h
      obtain ⟨refinements, hcourse⟩ := ih hauto
      exact ⟨_, .look id (.request (.refine id rule) hrefine hcourse)⟩

theorem moves_load (p : ProofState) (text : List Char) : Moves p (load p text).2 := by
  unfold load
  split
  · rename_i hload
    exact .load hload
  · exact .course (.stay p)

theorem moves_perform {command : Command} {outcome : Outcome}
    (h : perform p command = .ok outcome) : Moves p outcome.2 := by
  have hcourse : (∃ refinements, Course p refinements outcome.2) → Moves p outcome.2 :=
    fun ⟨_, hcourse⟩ => .course hcourse
  cases command with
  | load text =>
    obtain rfl := Except.ok.inj h
    exact moves_load p text
  | rules argument =>
    obtain rfl := Except.ok.inj h
    exact .course (course_rules p argument)
  | refine argument => exact hcourse (course_refine h)
  | auto => exact hcourse (course_auto h)
  | clear =>
    obtain rfl := Except.ok.inj h
    exact .reset
  | _ =>
    obtain rfl := Except.ok.inj h
    exact .course (.stay p)

/-- **What a line does to the state.** -/
theorem moves_execute {line : String} {reply : Reply} (h : execute p line = .ok reply) :
    Moves p reply.state := by
  unfold execute at h
  split at h
  · obtain rfl := Except.ok.inj h
    exact .course (.stay p)
  · obtain rfl := Except.ok.inj h
    exact .course (.stay p)
  · dsimp only at h
    split at h
    · cases h
    · rename_i hperform
      obtain rfl := Except.ok.inj h
      exact moves_perform hperform

/-! ### The invariant -/

theorem Moves.sound (h : Moves p p') (hs : p.store.Reachable) (hp : p.Sound) :
    p'.store.Reachable ∧ p'.Sound := by
  cases h with
  | course hcourse =>
    obtain ⟨hp', hstore, -⟩ := hcourse.sound hp
    exact ⟨hstore ▸ hs, hp'⟩
  | reset => exact ⟨hs, hp.reset⟩
  | load hload =>
    obtain ⟨e, -, rfl⟩ := load_eq_ok hload
    exact sound_load hs e

/-- **At any time in a session** the store can be reached and the proof state is sound. -/
theorem Reachable.sound (h : Reachable p) : p.store.Reachable ∧ p.Sound := by
  induction h with
  | start hs => exact ⟨hs, sound_ofStore hs.wellFormed⟩
  | execute _ hexecute ih => exact (moves_execute hexecute).sound ih.1 ih.2

end SequentCalculus.Session
