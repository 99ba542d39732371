import SequentCalculus.Proofs.Replay

/-!
# Applicable rules

A rule can be looked at in three ways: it is listed among the applicable rules of a sequent, it can
be applied to the sequent, and the strategy chooses it.  The list goes through the tables of the two
sides shape by shape, applying a rule checks its principal formula, and the strategy looks for one
on the left before the right.  The list holds exactly the rules that can be applied, and what the
strategy chooses is on it.
-/

namespace SequentCalculus

/-! ### The order of the list -/

/-- **The order of the applicable rules**: by shape, then by side, then by the place of the
principal formula; the closing rule comes last. -/
inductive Rule.Before : Rule → Rule → Prop
  | shape {side side' : Side} {shape shape' : Shape} {f g : Formula}
      (h : shape.kind.rank < shape'.kind.rank) :
      Before (.logical side shape f) (.logical side' shape' g)
  | side {shape : Shape} {f g : Formula} :
      Before (.logical .left shape f) (.logical .right shape g)
  | place {side : Side} {shape : Shape} {f g : Formula} (h : f.index < g.index) :
      Before (.logical side shape f) (.logical side shape g)
  | ax {side : Side} {shape : Shape} {f : Formula} : Before (.logical side shape f) .ax

theorem Rule.Before.ne {r r' : Rule} (h : r.Before r') : r ≠ r' := by
  rintro rfl
  cases h with
  | shape h => exact Nat.lt_irrefl _ h
  | place h => exact Nat.lt_irrefl _ h

namespace Sequent

variable {q : Sequent}

/-- The rules for the formulas of a shape come in order, those of the left first. -/
theorem pairwise_rulesOf (q : Sequent) (shape : Shape) :
    ((q.left.ofKind shape.kind).map (Rule.logical .left shape) ++
      (q.right.ofKind shape.kind).map (Rule.logical .right shape)).Pairwise Rule.Before := by
  have hplaces : ∀ side : Side,
      (((q.side side).ofKind shape.kind).map (Rule.logical side shape)).Pairwise Rule.Before :=
    fun side => List.pairwise_map.2 (((q.side side).pairwise_index_ofKind _).imp .place)
  refine List.pairwise_append.2 ⟨hplaces .left, hplaces .right, fun r hr r' hr' => ?_⟩
  obtain ⟨f, -, rfl⟩ := List.mem_map.1 hr
  obtain ⟨g, -, rfl⟩ := List.mem_map.1 hr'
  exact .side

theorem pairwise_applicableRules (q : Sequent) : q.applicableRules.Pairwise Rule.Before := by
  rw [applicableRules_eq]
  refine List.pairwise_append.2 ⟨List.pairwise_flatMap.2 ⟨fun shape _ => ?_, ?_⟩, ?_, ?_⟩
  · exact q.pairwise_rulesOf shape
  · -- the shapes come in the order of their kinds
    have hshapes : Shape.all.Pairwise fun shape shape' => shape.kind.rank < shape'.kind.rank := by
      decide
    refine hshapes.imp fun hlt r hr r' hr' => ?_
    simp only [List.mem_append, List.mem_map] at hr hr'
    rcases hr with ⟨f, -, rfl⟩ | ⟨f, -, rfl⟩ <;> rcases hr' with ⟨g, -, rfl⟩ | ⟨g, -, rfl⟩ <;>
      exact .shape hlt
  · split
    · exact List.pairwise_singleton _ _
    · exact .nil
  · intro r hr r' hr'
    obtain rfl : r' = .ax := by
      split at hr'
      · exact List.mem_singleton.1 hr'
      · cases hr'
    simp only [List.mem_flatMap, List.mem_append, List.mem_map] at hr
    obtain ⟨shape, -, ⟨f, -, rfl⟩ | ⟨f, -, rfl⟩⟩ := hr <;> exact .ax

/-- What the strategy chooses is the closing rule or nothing exactly if there is nothing to take
apart. -/
theorem nextRule_eq_ax_or_none_iff {last : LastStep} :
    q.nextRule last = some .ax ∨ q.nextRule last = none ↔ q.Saturated := by
  constructor
  · rintro (hrule | hrule)
    · exact saturated_of_nextRule_ax hrule
    · exact (nextRule_eq_none_iff.1 hrule).1
  · intro hsat
    rw [hsat.nextRule_eq]
    split
    · exact .inr rfl
    · exact .inl rfl

theorem mem_applicableRules_of_nextRule {last : LastStep} {side : Side} {shape : Shape}
    {f : Formula} (h : q.nextRule last = some (.logical side shape f)) :
    .logical side shape f ∈ q.applicableRules := by
  rcases q.nextRule_cases last with ⟨_, _, _, hrule, hmem, hkind⟩ | ⟨-, -, hrule⟩ | ⟨-, -, hrule⟩
  · rw [h] at hrule
    cases hrule
    exact logical_mem_applicableRules.2 ⟨hmem, hkind⟩
  · rw [h] at hrule
    cases hrule
  · rw [h] at hrule
    cases hrule

end Sequent

/-! ### The rules that work -/

/-- **The applicable rules are exactly the rules that work**: a rule is listed if and only if
subgoals come of applying it, or it is the closing rule and succeeds.  The list is strictly ordered,
so that no rule occurs twice.  A logical rule that the strategy chooses is on the list, the strategy
chooses the closing rule or nothing only if no formula can be taken apart, and the list is empty
only if, besides, the closing rule fails. -/
theorem applicable_rules_are_those_that_work {s : Store} {q : Sequent} (hs : s.Reachable)
    (hq : s.OwnsSequent q) :
    (∀ r : Rule, r ∈ q.applicableRules ↔
      (∃ subgoals, r.apply s q = .ok (.subgoals subgoals)) ∨ r = .ax ∧ r.apply s q = .ok .closed) ∧
    q.applicableRules.Nodup ∧
    q.applicableRules.Pairwise Rule.Before ∧
    (∀ last side shape f, q.nextRule last = some (.logical side shape f) →
      .logical side shape f ∈ q.applicableRules) ∧
    (∀ last, q.nextRule last = some .ax ∨ q.nextRule last = none ↔ q.Saturated) ∧
    (q.applicableRules = [] ↔ q.Saturated ∧ Rule.ax.apply s q = .ok .failed) := by
  have hordered := q.pairwise_applicableRules
  refine ⟨fun r => ?_, hordered.imp Rule.Before.ne, hordered, fun last side shape f => ?_,
    fun last => Sequent.nextRule_eq_ax_or_none_iff, ?_⟩
  · rw [mem_applicableRules_iff hs.wellFormed hq, Rule.apply_eq_closed_iff, or_comm]
    simp only [Rule.apply_eq_subgoals_iff, subgoals_eq_ok_iff, and_self_left]
  · exact Sequent.mem_applicableRules_of_nextRule
  · rw [Sequent.applicableRules_eq_nil_iff]
    refine and_congr_right fun _ => ?_
    cases hax : q.isAxiom <;> simp [Rule.apply, hax]

/-- In `a & b, a & b, a <=> b => a <=> b, ~a, a & b` a conjunction stands twice on the left and once
on the right.  It is listed once for each side, and the equivalence, which stands on both sides,
makes the closing rule applicable but has no rule of its own. -/
theorem applicable_rules_of_repeated_conjunction :
    let both : Expr := .binary .and (.atom "a") (.atom "b")
    let same : Expr := .binary .iff (.atom "a") (.atom "b")
    let written : SequentExpr := ⟨[both, both, same], [same, .not (.atom "a"), both]⟩
    let built := written.build (.ofPolicy ⟨.keep, .keep⟩)
    let f : Formula := ⟨4, .compound (.bin .and)⟩
    let g : Formula := ⟨6, .compound .not⟩
    built.2.Reachable ∧ built.2.OwnsSequent built.1 ∧
      built.1.applicableRules =
        [.logical .left .and f, .logical .right .and f, .logical .right .not g, .ax] ∧
      (∃ subgoals, (Rule.logical .right .not g).apply built.2 built.1 = .ok (.subgoals subgoals)) ∧
      (¬∃ subgoals, (Rule.logical .left .not g).apply built.2 built.1 = .ok (.subgoals subgoals)) ∧
      Rule.ax.apply built.2 built.1 = .ok .closed ∧ ¬built.1.Saturated := by
  intro both same written built f g
  obtain ⟨hreachable, howns⟩ := Store.reachable_build_sequent ⟨.keep, .keep⟩ written
  have hrules : built.1.applicableRules =
      [.logical .left .and f, .logical .right .and f, .logical .right .not g, .ax] := by
    decide +kernel
  obtain ⟨hlisted, -, -, -, hnext, -⟩ := applicable_rules_are_those_that_work hreachable howns
  rw [hrules] at hlisted
  refine ⟨hreachable, howns, hrules, ?_, fun happlies => ?_, ?_, fun hsat => ?_⟩
  · exact ((hlisted _).1 (by decide)).resolve_right (by simp)
  · exact absurd ((hlisted _).2 (.inl happlies)) (by decide)
  · rcases (hlisted .ax).1 (by decide) with ⟨subgoals, happlies⟩ | ⟨-, hcloses⟩
    · cases Rule.apply_eq_subgoals_iff.1 happlies
    · exact hcloses
  · exact absurd ((hnext .start).2 hsat) (by decide +kernel)

end SequentCalculus
