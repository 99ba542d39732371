import SequentCalculus.Proofs.Calculus

/-!
# What a rule takes away

A logical rule takes one connective away.  If it has one subgoal, that is all: the parts of the
principal formula are still there, on whichever side.  If it has two, each of them gets one part of
the principal formula, and the connectives of the other part are missing from it
(`Infers.weight_cases`).  The context is the same on both branches, so it does not matter how often
the principal formula or one of its parts occurs there.

No rule brings in a formula that is neither in the goal nor a part of the principal formula
(`Infers.mem_or_mem_parts`).
-/

namespace SequentCalculus

variable {s : Store} {q : Sequent} {r : Rule} {premises : List Sequent}

/-- The connectives of all occurrences in a sequent, each formula counted by itself. -/
def Store.countedWeight (s : Store) (q : Sequent) : Nat :=
  sumBy s.connectives (q.left.occurrences ++ q.right.occurrences)

theorem Store.parts_binary {f a b : Formula} {op : BinOp}
    (h : s.node? f = some (.binary op a b)) : s.parts f = [a, b] := by
  rw [parts, h]
  rfl

/-- The weights of two branches that share a context, where one gets the left part of the principal
formula and the other one the right part. -/
theorem Store.weight_add_part {f a b : Formula} {op : BinOp}
    (h : s.node? f = some (.binary op a b)) (context : Sequent) (side side₁ side₂ : Side) :
    s.weight (context.add side₁ a) + 1 + s.connectives b = s.weight (context.add side f) ∧
      s.weight (context.add side₂ b) + 1 + s.connectives a = s.weight (context.add side f) := by
  simp only [weight_add, connectives_eq, tree_binary h, Expr.connectives]
  omega

/-- The weight of a branch that gets both parts of the principal formula. -/
theorem Store.weight_add_parts {f a b : Formula} {op : BinOp}
    (h : s.node? f = some (.binary op a b)) (context : Sequent) (side side₁ side₂ : Side) :
    s.weight ((context.add side₁ a).add side₂ b) + 1 = s.weight (context.add side f) := by
  simp only [weight_add, tree_binary h, Expr.connectives]
  omega

theorem Store.weight_add_operand {f a : Formula} (h : s.node? f = some (.not a))
    (context : Sequent) (side side₁ : Side) :
    s.weight (context.add side₁ a) + 1 = s.weight (context.add side f) := by
  simp only [weight_add, tree_not h, Expr.connectives]
  omega

/-- **What a rule takes away**, for each of the figures. -/
theorem Infers.weight_cases (h : Infers s r q premises) :
    (r.name.numSubgoals = 1 ∧ ∃ premise, premises = [premise] ∧
      s.weight premise + 1 = s.weight q) ∨
    (r.name.numSubgoals = 2 ∧ ∃ f a b first second, r.principal? = some f ∧
      s.parts f = [a, b] ∧ premises = [first, second] ∧
      s.weight first + 1 + s.connectives b = s.weight q ∧
      s.weight second + 1 + s.connectives a = s.weight q) := by
  cases h with
  | leftAnd context h => exact .inl ⟨rfl, _, rfl, Store.weight_add_parts h context _ _ _⟩
  | rightAnd context h =>
    exact .inr ⟨rfl, _, _, _, _, _, rfl, Store.parts_binary h, rfl,
      Store.weight_add_part h context _ _ _⟩
  | leftOr context h =>
    exact .inr ⟨rfl, _, _, _, _, _, rfl, Store.parts_binary h, rfl,
      Store.weight_add_part h context _ _ _⟩
  | rightOr context h => exact .inl ⟨rfl, _, rfl, Store.weight_add_parts h context _ _ _⟩
  | leftImplies context h =>
    exact .inr ⟨rfl, _, _, _, _, _, rfl, Store.parts_binary h, rfl,
      Store.weight_add_part h context _ _ _⟩
  | rightImplies context h => exact .inl ⟨rfl, _, rfl, Store.weight_add_parts h context _ _ _⟩
  | leftNot context h => exact .inl ⟨rfl, _, rfl, Store.weight_add_operand h context _ _⟩
  | rightNot context h => exact .inl ⟨rfl, _, rfl, Store.weight_add_operand h context _ _⟩

/-- **Nothing new comes up**: a formula of a premise stood on the same side of the conclusion, or is
a part of the principal formula. -/
theorem Infers.mem_or_mem_parts (h : Infers s r q premises) {f g : Formula}
    (hf : r.principal? = some f) {premise : Sequent} (hpremise : premise ∈ premises) {side : Side}
    (hg : g ∈ premise.side side) : g ∈ q.side side ∨ g ∈ s.parts f := by
  obtain ⟨side', shape, _, node, branches, rfl, -, -, hnode, hbranches, rfl⟩ :=
    Store.subgoals_eq_ok (subgoals_eq_ok_iff.2 h)
  obtain rfl := Option.some.inj hf
  obtain ⟨branch, hbranch, rfl⟩ := List.mem_map.1 hpremise
  rcases Sequent.mem_side_addAll.1 hg with hadded | hkept
  · rw [Store.parts, hnode]
    exact .inr (mem_parts_of_branches hbranches hbranch hadded)
  · exact .inl (Sequent.mem_of_mem_side_erase hkept)

/-- **Rules lower the weight by exact amounts.**  Every logical rule that is applicable to a sequent
has subgoals.  If it has one, that is lighter by one connective.  If it has two, they are lighter by
one connective and those of the part that went to the other one.  Their formulas are formulas of
the sequent and parts of the principal formula. -/
theorem rules_lower_weight_exactly (hs : s.Reachable) (hq : s.OwnsSequent q) {side : Side}
    {shape : Shape} {f : Formula} (hr : .logical side shape f ∈ q.applicableRules) :
    ∃ premises, (Rule.logical side shape f).apply s q = .ok (.subgoals premises) ∧
      ((RuleName.logical side shape).numSubgoals = 1 ∧ (∃ premise, premises = [premise] ∧
          s.countedWeight premise + 1 = s.countedWeight q) ∨
        (RuleName.logical side shape).numSubgoals = 2 ∧ ∃ a b first second,
          s.parts f = [a, b] ∧ premises = [first, second] ∧
          s.countedWeight first + 1 + s.connectives b = s.countedWeight q ∧
          s.countedWeight second + 1 + s.connectives a = s.countedWeight q) ∧
      ∀ premise ∈ premises, ∀ side', ∀ g ∈ premise.side side',
        g ∈ q.side side' ∨ g ∈ s.parts f := by
  obtain ⟨hmem, hkind⟩ := Sequent.logical_mem_applicableRules.1 hr
  obtain ⟨premises, hinfers⟩ := exists_infers hs.wellFormed (hq side f hmem) hmem hkind
  have happly := Rule.apply_eq_subgoals_iff.2 (subgoals_eq_ok_iff.2 hinfers)
  refine ⟨premises, happly, ?_, fun premise hpremise side' g hg =>
    hinfers.mem_or_mem_parts rfl hpremise hg⟩
  simp only [Store.countedWeight, ← Store.weight_eq]
  rcases hinfers.weight_cases with hone | ⟨htwo, _, a, b, first, second, hprincipal, hweights⟩
  · exact .inl hone
  · cases hprincipal
    exact .inr ⟨htwo, a, b, first, second, hweights⟩

/-- `((p & q) & p) | ~p` has four connectives and stands twice on the left.  One of the two is taken
apart.  The branch of `(p & q) & p` is lighter by one and by the negation, the other branch by one
and by the two conjunctions. -/
theorem rules_lower_weight_of_repeated_disjunction :
    let both : Expr := .binary .and (.binary .and (.atom "p") (.atom "q")) (.atom "p")
    let either : Expr := .binary .or both (.not (.atom "p"))
    let built := SequentExpr.build (.ofPolicy {}) ⟨[either, either], [.atom "p"]⟩
    let r : Rule := .logical .left .or ⟨7, .compound (.bin .or)⟩
    built.2.Reachable ∧ built.2.OwnsSequent built.1 ∧ r ∈ built.1.applicableRules ∧
      built.2.countedWeight built.1 = 8 ∧
      ∃ first second, r.apply built.2 built.1 = .ok (.subgoals [first, second]) ∧
        built.2.countedWeight first = 6 ∧ built.2.countedWeight second = 5 := by
  intro both either built r
  obtain ⟨hreachable, howns⟩ : built.2.Reachable ∧ built.2.OwnsSequent built.1 :=
    Store.reachable_build_sequent {} ⟨[either, either], [.atom "p"]⟩
  have hr : r ∈ built.1.applicableRules := by decide +kernel
  have hweight : built.2.countedWeight built.1 = 8 := by decide +kernel
  refine ⟨hreachable, howns, hr, hweight, ?_⟩
  obtain ⟨premises, happly, hweights, -⟩ := rules_lower_weight_exactly hreachable howns hr
  rcases hweights with ⟨hone, -⟩ | ⟨-, a, b, first, second, hparts, rfl, hfirst, hsecond⟩
  · exact absurd hone (by decide)
  · have hdisjuncts : built.2.parts ⟨7, .compound (.bin .or)⟩ =
        [⟨5, .compound (.bin .and)⟩, ⟨6, .compound .not⟩] := by decide +kernel
    cases hdisjuncts.symm.trans hparts
    have hboth : built.2.connectives ⟨5, .compound (.bin .and)⟩ = 2 := by decide +kernel
    have hnot : built.2.connectives ⟨6, .compound .not⟩ = 1 := by decide +kernel
    exact ⟨first, second, happly, by omega, by omega⟩

end SequentCalculus
