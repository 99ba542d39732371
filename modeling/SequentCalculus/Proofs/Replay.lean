import SequentCalculus.Proofs.Calculus
import SequentCalculus.Replay

/-!
# Replaying is checking

A list of rules is replayed on a stack of open goals.  It is accepted exactly if it lists the rules
of a derivation, from the root upwards and the first branch first.

Both directions are proved for a whole stack, since the goals of the branches not yet visited lie
below the current one.  The rules of a derivation take its goal off the stack and leave the rest of
the list to the rest of the stack (`Derivation.fault_replay`).  Conversely, the rules that empty a
stack are cut into one derivation for each of its goals (`Replay.exists_derivations`): a rule's
subgoals lie on the stack in front of the other goals, so the derivations found for all of them
split into those of its branches and those of the others (`Derivations.exists_append`).
-/

namespace SequentCalculus

/-! ### Single rules -/

/-- Only the closing rule closes a goal, and only if it is an axiom. -/
theorem Rule.apply_eq_closed_iff {s : Store} {r : Rule} {goal : Sequent} :
    r.apply s goal = .ok .closed ↔ r = .ax ∧ goal.isAxiom = true := by
  cases r with
  | ax => simp [apply]
  | logical side shape f =>
    rw [apply]
    cases subgoals s (.logical side shape f) goal <;> simp [Except.map]

namespace Replay

variable {s : Store} {goal : Sequent} {goals premises : List Sequent} {rule : Rule}
  {rules : List Rule}

theorem fault_ofGoals_ax (h : goal.isAxiom = true) :
    (ofGoals s (goal :: goals) (.ax :: rules)).fault = (ofGoals s goals rules).fault := by
  rw [ofGoals, Rule.apply_eq_closed_iff.2 ⟨rfl, h⟩]
  rfl

theorem fault_ofGoals_infer (h : Infers s rule goal premises) :
    (ofGoals s (goal :: goals) (rule :: rules)).fault =
      (ofGoals s (premises ++ goals) rules).fault := by
  rw [ofGoals, Rule.apply_eq_subgoals_iff.2 (subgoals_eq_ok_iff.2 h)]
  rfl

/-- **What an accepted list starts with**: the topmost goal is closed, or it is replaced by the
premises of a rule. -/
theorem cases_of_fault_eq_none (h : (ofGoals s (goal :: goals) (rule :: rules)).fault = none) :
    (rule = .ax ∧ goal.isAxiom = true ∧ (ofGoals s goals rules).fault = none) ∨
      ∃ premises, Infers s rule goal premises ∧
        (ofGoals s (premises ++ goals) rules).fault = none := by
  rw [ofGoals] at h
  cases happly : rule.apply s goal with
  | error fault =>
    rw [happly] at h
    cases h
  | ok application =>
    rw [happly] at h
    cases application with
    | failed => cases h
    | closed =>
      obtain ⟨hrule, hax⟩ := Rule.apply_eq_closed_iff.1 happly
      exact .inl ⟨hrule, hax, h⟩
    | subgoals premises =>
      have hinfers := subgoals_eq_ok_iff.1 (Rule.apply_eq_subgoals_iff.1 happly)
      exact .inr ⟨premises, hinfers, h⟩

end Replay

/-! ### Derivations are accepted -/

mutual

/-- **A derivation takes its goal off the stack**: whether the rest is accepted depends on the other
goals only. -/
theorem Derivation.fault_replay {s : Store} {q : Sequent} (d : Derivation s q)
    (goals : List Sequent) (rules : List Rule) :
    (Replay.ofGoals s (q :: goals) (d.rules ++ rules)).fault =
      (Replay.ofGoals s goals rules).fault := by
  cases d with
  | ax h => exact Replay.fault_ofGoals_ax h
  | infer rule h subtrees =>
    rw [Derivation.rules, List.cons_append, Replay.fault_ofGoals_infer h]
    exact subtrees.fault_replay goals rules

theorem Derivations.fault_replay {s : Store} {qs : List Sequent} (ds : Derivations s qs)
    (goals : List Sequent) (rules : List Rule) :
    (Replay.ofGoals s (qs ++ goals) (ds.rules ++ rules)).fault =
      (Replay.ofGoals s goals rules).fault := by
  cases ds with
  | nil => rfl
  | cons first others =>
    rw [Derivations.rules, List.append_assoc, List.cons_append, first.fault_replay]
    exact others.fault_replay goals rules

end

/-! ### Accepted lists are derivations -/

theorem Derivations.exists_append {s : Store} {qs qs' : List Sequent}
    (ds : Derivations s (qs ++ qs')) :
    ∃ (front : Derivations s qs) (back : Derivations s qs'),
      ds.rules = front.rules ++ back.rules := by
  induction qs with
  | nil => exact ⟨.nil, ds, rfl⟩
  | cons q qs ih =>
    cases ds with
    | cons first others =>
      obtain ⟨front, back, hrules⟩ := ih others
      refine ⟨.cons first front, back, ?_⟩
      rw [Derivations.rules, Derivations.rules, hrules, List.append_assoc]

/-- **An accepted list is made of derivations**, one for each goal on the stack. -/
theorem Replay.exists_derivations {s : Store} {goals : List Sequent} {rules : List Rule}
    (h : (ofGoals s goals rules).fault = none) :
    ∃ ds : Derivations s goals, ds.rules = rules := by
  induction rules generalizing goals with
  | nil =>
    cases goals with
    | nil => exact ⟨.nil, rfl⟩
    | cons goal goals => cases h
  | cons rule rules ih =>
    cases goals with
    | nil => cases h
    | cons goal goals =>
      rcases cases_of_fault_eq_none h with ⟨rfl, hax, hrest⟩ | ⟨premises, hinfers, hrest⟩
      · obtain ⟨others, rfl⟩ := ih hrest
        exact ⟨.cons (.ax hax) others, rfl⟩
      · -- the branches of the rule come first among the goals that are left
        obtain ⟨ds, rfl⟩ := ih hrest
        obtain ⟨subtrees, others, hrules⟩ := ds.exists_append
        refine ⟨.cons (.infer rule hinfers subtrees) others, ?_⟩
        rw [Derivations.rules, Derivation.rules, List.cons_append, hrules]

/-! ### Checking -/

namespace Store

variable {s : Store} {problem : Sequent} {rules extra : List Rule}

theorem fault_replay_eq_none_iff :
    (s.replay problem rules).fault = none ↔ ∃ d : Derivation s problem, d.rules = rules := by
  constructor
  · intro h
    obtain ⟨ds, rfl⟩ := Replay.exists_derivations h
    cases ds with
    | cons d others =>
      cases others
      exact ⟨d, (List.append_nil _).symm⟩
  · rintro ⟨d, rfl⟩
    have hreplay := d.fault_replay [] []
    rw [List.append_nil] at hreplay
    exact hreplay

/-- Nothing can follow a whole proof. -/
theorem eq_nil_of_fault_replay_append (h : (s.replay problem rules).fault = none)
    (happend : (s.replay problem (rules ++ extra)).fault = none) : extra = [] := by
  obtain ⟨d, rfl⟩ := fault_replay_eq_none_iff.1 h
  -- the proof empties the stack, and an empty stack accepts no rule
  have hextra : (Replay.ofGoals s [] extra).fault = none :=
    (d.fault_replay [] extra).symm.trans happend
  cases extra with
  | nil => rfl
  | cons rule extra => cases hextra

/-- **Replay is an exact checker**: it accepts the lists of rules of derivations and no others.  What
it accepts is proved, opaquely and classically, and neither a part of it nor anything longer is
accepted. -/
theorem replay_accepts_iff_derivation (hs : s.Reachable) (problem : Sequent) (rules : List Rule) :
    ((s.replay problem rules).fault = none ↔ ∃ d : Derivation s problem, d.rules = rules) ∧
      ((s.replay problem rules).fault = none →
        (∀ α : Assignment, problem.Holds (s.eval α)) ∧
        (∀ v, s.Respects v → problem.Holds fun f => (s.tree f).eval v) ∧
        ∀ other, other <+: rules ∨ rules <+: other →
          (s.replay problem other).fault = none → other = rules) := by
  refine ⟨fault_replay_eq_none_iff, fun haccepted => ?_⟩
  obtain ⟨d, hd⟩ := fault_replay_eq_none_iff.1 haccepted
  refine ⟨d.holds, fun v hv => ?_, fun other hother hrules => ?_⟩
  · exact holds_tree_of_forall_assignment hs.wellFormed d.holds hv
  · rcases hother with ⟨extra, rfl⟩ | ⟨extra, rfl⟩
    · rw [eq_nil_of_fault_replay_append hrules haccepted, List.append_nil]
    · rw [eq_nil_of_fault_replay_append haccepted hrules, List.append_nil]

/-- A proof of `p | q => q | p` with two branches. -/
theorem replay_accepts_swapped_disjunction :
    let problem : SequentExpr :=
      ⟨[.binary .or (.atom "p") (.atom "q")], [.binary .or (.atom "q") (.atom "p")]⟩
    let built := problem.build (.ofPolicy {})
    let split : Rule := .logical .left .or ⟨4, .compound (.bin .or)⟩
    let join : Rule := .logical .right .or ⟨5, .compound (.bin .or)⟩
    let rules := [split, join, .ax, join, .ax]
    built.2.Reachable ∧ (built.2.replay built.1 rules).fault = none ∧
      (∃ d : Derivation built.2 built.1, d.rules = rules) ∧
      ∀ other, other <+: rules ∨ rules <+: other →
        (built.2.replay built.1 other).fault = none → other = rules := by
  intro problem built split join rules
  have hpolicy := reachable_ofPolicy {}
  have hreachable : built.2.Reachable :=
    hpolicy.grow (grows_build_sequent hpolicy.wellFormed problem).1
  have haccepted : (built.2.replay built.1 rules).fault = none := by decide
  obtain ⟨hiff, hexact⟩ := replay_accepts_iff_derivation hreachable built.1 rules
  exact ⟨hreachable, haccepted, hiff.1 haccepted, (hexact haccepted).2.2⟩

end Store

end SequentCalculus
