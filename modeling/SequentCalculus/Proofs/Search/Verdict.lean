import SequentCalculus.Proofs.Search.Invariant

/-!
# The verdict of a search

A search without a limit always ends with a proof or with a saturated leaf, never with a fault, and
what it says is exact (`search_verdict`).  Two readings of this are stated.

* For a sequent of a store, a proof is found if and only if the sequent holds under every
  assignment, with equivalences as opaque as atoms.  This needs no assumption on the policy, and
  since every valuation is an assignment, what is proved holds classically.
* For a sequent that is written as expressions and built in a store that expands equivalences, a
  proof is found if and only if the expressions are classically valid.  Neither the policy for
  negations nor what the store holds already makes a difference.
-/

namespace SequentCalculus.Search

/-- **The verdict is exact**: a search without a limit ends with a proof of what holds under every
assignment, and with a saturated leaf of anything else. -/
theorem search_verdict {s : Store} (hs : s.WellFormed) {problem : Sequent}
    (hproblem : s.OwnsSequent problem) :
    ∃ run, s.search none problem = .ok run ∧
      ((∃ rules, run.result = .proof rules) ∨ ∃ leaf, run.result = .saturated leaf) ∧
      ((∃ rules, run.result = .proof rules) ↔ ∀ α : Assignment, problem.Holds (s.eval α)) := by
  obtain ⟨run, hrun, hsettles⟩ := search_settles hs hproblem none
  refine ⟨run, hrun, ?_⟩
  generalize run.result = result at hsettles
  cases hsettles with
  | proof rules hholds =>
    exact ⟨.inl ⟨rules, rfl⟩, fun _ => hholds, fun _ => ⟨rules, rfl⟩⟩
  | saturated leaf howns hsat hax hfails =>
    refine ⟨.inr ⟨leaf, rfl⟩, by simp, fun hholds => ?_⟩
    -- the leaf fails under some assignment, and the problem with it
    obtain ⟨α, hα⟩ := leaf.exists_fails_of_saturated s hsat hax
    exact absurd (hholds α) (Sequent.not_holds_iff.2 (hfails α hα))
  | gaveUp hlimit => exact absurd rfl hlimit

/-! ### Sequents of a store -/

/-- **Search decides opaque validity** for the sequents of any store, whatever its policy.  A proof
is therefore always classically sound. -/
theorem search_proves_iff_holds_opaquely {s : Store} (hs : s.Reachable) {problem : Sequent}
    (hproblem : s.OwnsSequent problem) :
    ∃ run, s.search none problem = .ok run ∧
      ((∃ rules, run.result = .proof rules) ↔ ∀ α : Assignment, problem.Holds (s.eval α)) ∧
      ((∃ rules, run.result = .proof rules) →
        ∀ v, s.Respects v → problem.Holds fun f => (s.tree f).eval v) := by
  obtain ⟨run, hrun, -, hiff⟩ := search_verdict hs.wellFormed hproblem
  refine ⟨run, hrun, hiff, fun hproof v hv => ?_⟩
  exact Store.holds_tree_of_forall_assignment hs.wellFormed (hiff.1 hproof) hv

/-- With kept equivalences `p <=> q => q <=> p` has no proof, although it is classically valid. -/
theorem search_swapped_equivalence_unproved :
    let swapped : SequentExpr :=
      ⟨[.binary .iff (.atom "p") (.atom "q")], [.binary .iff (.atom "q") (.atom "p")]⟩
    let built := swapped.build (.ofPolicy ⟨.keep, .keep⟩)
    built.2.Reachable ∧ built.2.OwnsSequent built.1 ∧ (∀ v, swapped.Holds v) ∧
      ∃ run, built.2.search none built.1 = .ok run ∧ ¬∃ rules, run.result = .proof rules := by
  intro swapped built
  have hpolicy := Store.reachable_ofPolicy ⟨.keep, .keep⟩
  obtain ⟨hgrows, howns⟩ := Store.grows_build_sequent hpolicy.wellFormed swapped
  have hreachable : built.2.Reachable := hpolicy.grow hgrows
  obtain ⟨run, hrun, hiff, -⟩ := search_proves_iff_holds_opaquely hreachable howns
  refine ⟨hreachable, howns, fun v => ?_, run, hrun, fun hproof => ?_⟩
  · cases hp : v "p" <;> cases hq : v "q" <;>
      simp [swapped, SequentExpr.Holds, Expr.eval, BinOp.eval, hp, hq]
  · -- the two equivalences are different leaves
    have hsat : built.1.Saturated := by
      rintro (_ | _) f hf shape
      · obtain rfl : f = ⟨4, .compound (.bin .iff)⟩ := List.mem_singleton.1 hf
        cases shape <;> decide
      · obtain rfl : f = ⟨5, .compound (.bin .iff)⟩ := List.mem_singleton.1 hf
        cases shape <;> decide
    obtain ⟨α, hα⟩ := built.1.exists_fails_of_saturated built.2 hsat (by decide)
    exact Sequent.not_holds_iff.2 hα (hiff.1 hproof α)

/-! ### Written sequents -/

/-- **Search decides classical validity** of written sequents, in a store that expands equivalences
and at any time of its life. -/
theorem search_build_proves_iff_valid {policy : Policy} (hexpand : policy.equivalence = .expand)
    {falseName trueName : String} (hne : falseName ≠ trueName) :
    ∃ fresh, Store.withConstants policy falseName trueName = .ok fresh ∧
      ∀ s : Store, fresh.Grows s → ∀ e : SequentExpr,
        ∃ run, (e.build s).2.search none (e.build s).1 = .ok run ∧
          ((∃ rules, run.result = .proof rules) ∨ ∃ leaf, run.result = .saturated leaf) ∧
          ((∃ rules, run.result = .proof rules) ↔
            ∀ v : String → Bool, v falseName = false → v trueName = true → e.Holds v) := by
  have hfresh : Store.withConstants policy falseName trueName =
      .ok (.constants policy falseName trueName) := if_neg hne
  refine ⟨_, hfresh, fun s hgrows e => ?_⟩
  have hwf := Store.wellFormed_withConstants hfresh
  obtain ⟨hext, hs⟩ := hgrows.extend_wellFormed hwf
  obtain ⟨hbuild, howns⟩ := Store.grows_build_sequent hs e
  obtain ⟨hext', hs'⟩ := hbuild.extend_wellFormed hs
  have hexpand' : (e.build s).2.policy.equivalence = .expand := by
    rw [hext'.policy, hext.policy, (Store.withConstants_eq_ok hfresh).2.1]
    exact hexpand
  obtain ⟨run, hrun, hends, hiff⟩ := search_verdict hs' howns
  refine ⟨run, hrun, hends, hiff.trans ?_⟩
  rw [Store.forall_assignment_holds_iff hs' hexpand' howns]
  -- the constants have the same names before and after building
  refine forall_congr' fun v => ?_
  have hrespects : s.Respects v ↔ v falseName = false ∧ v trueName = true :=
    (Store.respects_extend_iff hwf hs hext).trans (Store.respects_withConstants_iff hfresh)
  rw [Store.respects_extend_iff hs hs' hext', ← and_imp, ← hrespects]
  exact forall_congr' fun hv => Store.holds_build_iff hs hv e

/-- `p <=> q, ~p => ~q` has a proof in a store that holds `q` already, with negations built as
implications. -/
theorem search_build_contraposition_proved :
    ∃ fresh, Store.withConstants ⟨.asImplication, .expand⟩ "F" "T" = .ok fresh ∧
      let built := SequentExpr.build (fresh.atom "q").2
        ⟨[.binary .iff (.atom "p") (.atom "q"), .not (.atom "p")], [.not (.atom "q")]⟩
      ∃ run, built.2.search none built.1 = .ok run ∧ ∃ rules, run.result = .proof rules := by
  obtain ⟨fresh, hfresh, hsearch⟩ :=
    @search_build_proves_iff_valid ⟨.asImplication, .expand⟩ rfl "F" "T" (by decide)
  obtain ⟨run, hrun, -, hiff⟩ := hsearch (fresh.atom "q").2 (.single (.atom fresh "q"))
    ⟨[.binary .iff (.atom "p") (.atom "q"), .not (.atom "p")], [.not (.atom "q")]⟩
  refine ⟨fresh, hfresh, run, hrun, hiff.2 fun v _ _ => ?_⟩
  cases hp : v "p" <;> cases hq : v "q" <;>
    simp [SequentExpr.Holds, Expr.eval, BinOp.eval, hp, hq]

end SequentCalculus.Search
