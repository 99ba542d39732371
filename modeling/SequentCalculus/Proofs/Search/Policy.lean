import SequentCalculus.Proofs.Search.Verdict

/-!
# Verdicts under different policies

The same written sequent is built as different formulas in stores with different policies, and then
searched by different rules.  What the verdicts have to do with each other is decided by the normal
forms of the expressions alone: a proof is found if and only if they hold whatever truth values
their atoms and equivalences have (`SequentExpr.OpaquelyValid`, `search_build_settles`).  Nothing
else that a store holds makes a difference.

* Where equivalences are expanded, this is classical validity (`opaquelyValid_iff_of_expand`).
* Where they are kept, it is classically sound (`OpaquelyValid.holds`), but not complete: the more
  equivalences a policy identifies, the more it proves (`OpaquelyValid.mono`).  Rewriting negations
  and implications into each other identifies the same equivalences in both directions, and more
  than keeping them does.
-/

namespace SequentCalculus

/-- The normal forms of a sequent hold, whatever the truth values of atoms and equivalences are. -/
def SequentExpr.OpaquelyValid (policy : Policy) (falseName trueName : String) (e : SequentExpr) :
    Prop :=
  ∀ leaf : Expr → Bool, leaf (.atom falseName) = false → leaf (.atom trueName) = true →
    e.HoldsUnder fun a =>
      (Expr.normal policy (.atom falseName) (.atom trueName) a).opaqueEval leaf

namespace SequentExpr

variable {p q : Policy} {falseName trueName : String} {e : SequentExpr}

/-- What is valid under a policy is valid under one that identifies more equivalences. -/
theorem OpaquelyValid.mono (h : e.OpaquelyValid p falseName trueName)
    (hp : p.equivalence = .keep) (hpq : p.negation = .keep ∨ q.negation ≠ .keep) :
    e.OpaquelyValid q falseName trueName := by
  intro leaf hfalse htrue
  -- the finer leaves get their values through the coarser normal form
  have hholds := h
    (fun a => (Expr.normal q (.atom falseName) (.atom trueName) a).opaqueEval leaf) hfalse htrue
  simpa only [Expr.opaqueEval_normal hp hpq hfalse] using hholds

/-- What is opaquely valid is classically valid. -/
theorem OpaquelyValid.holds (h : e.OpaquelyValid p falseName trueName) {v : String → Bool}
    (hfalse : v falseName = false) (htrue : v trueName = true) : e.Holds v := by
  have hholds := h (Expr.eval v) hfalse htrue
  have hbot : (Expr.atom falseName).eval v = false := hfalse
  have htop : (Expr.atom trueName).eval v = true := htrue
  simp only [Expr.opaqueEval_eval, Expr.eval_normal hbot htop] at hholds
  exact hholds

/-- Where equivalences are expanded, opaque validity is classical validity. -/
theorem opaquelyValid_iff_of_expand (hq : q.equivalence = .expand) :
    e.OpaquelyValid q falseName trueName ↔
      ∀ v : String → Bool, v falseName = false → v trueName = true → e.Holds v := by
  constructor
  · intro h v hfalse htrue
    exact h.holds hfalse htrue
  · intro h leaf hfalse htrue
    simp only [Expr.opaqueEval_normal_of_expand hq hfalse htrue]
    exact h (fun name => leaf (.atom name)) hfalse htrue

end SequentExpr

namespace Search

/-- The run has ended with a proof. -/
def Run.Proved (run : Run) : Prop :=
  ∃ rules, run.result = .proof rules

/-- The run has ended with a leaf that refutes its problem. -/
def Run.Refuted (run : Run) : Prop :=
  ∃ leaf, run.result = .saturated leaf

/-- **The verdict on a written sequent** depends on the policy and the names of the constants
only. -/
theorem search_build_settles {policy : Policy} {falseName trueName : String} {fresh s : Store}
    (hfresh : Store.withConstants policy falseName trueName = .ok fresh) (hgrows : fresh.Grows s)
    (e : SequentExpr) :
    ∃ run, (e.build s).2.search none (e.build s).1 = .ok run ∧ (run.Proved ∨ run.Refuted) ∧
      (run.Proved ↔ e.OpaquelyValid policy falseName trueName) := by
  have hwf := Store.wellFormed_withConstants hfresh
  obtain ⟨hext, hs⟩ := hgrows.extend_wellFormed hwf
  obtain ⟨hbuild, howns⟩ := Store.grows_build_sequent hs e
  obtain ⟨hext', hs'⟩ := hbuild.extend_wellFormed hs
  obtain ⟨run, hrun, hends, hiff⟩ := search_verdict hs' howns
  refine ⟨run, hrun, hends, hiff.trans ?_⟩
  -- the constants are called the same before and after building
  obtain ⟨hfalsum, hverum⟩ := Store.tree_constants hfresh hwf hs hext
  have hpolicy : s.policy = policy := hext.policy.trans (Store.withConstants_eq_ok hfresh).2.1
  rw [Store.forall_assignment_iff_forall_leaf hs' howns,
    hs.tree_extend hs' hext' hs.owns_falsum, hs.tree_extend hs' hext' hs.owns_verum, hfalsum,
    hverum]
  refine forall_congr' fun leaf => forall_congr' fun _ => forall_congr' fun _ => ?_
  rw [Store.holds_build_iff_holdsUnder hs e (Expr.opaqueEval leaf), hpolicy, hfalsum, hverum]

/-- **How the verdict depends on the policy.**  Searches in stores with the same names for the
constants are compared, whatever else the stores hold.

* If both policies expand equivalences, the verdict is the same.
* If both keep them and rewrite between negations and implications, in whichever direction, the
  verdict is the same.
* If both keep them and the first one also keeps negations, what it proves is proved.
* If the first one keeps equivalences and the second one expands them, what the first one proves is
  proved. -/
theorem verdict_depends_on_policy (p q : Policy) {falseName trueName : String}
    (hne : falseName ≠ trueName) :
    ∃ fresh fresh', Store.withConstants p falseName trueName = .ok fresh ∧
      Store.withConstants q falseName trueName = .ok fresh' ∧
      ∀ s t : Store, fresh.Grows s → fresh'.Grows t → ∀ e : SequentExpr,
        ∃ run run', (e.build s).2.search none (e.build s).1 = .ok run ∧
          (e.build t).2.search none (e.build t).1 = .ok run' ∧
          (run.Proved ∨ run.Refuted) ∧ (run'.Proved ∨ run'.Refuted) ∧
          (p.equivalence = .expand → q.equivalence = .expand → (run.Proved ↔ run'.Proved)) ∧
          (p.equivalence = .keep → q.equivalence = .keep → p.negation ≠ .keep →
            q.negation ≠ .keep → (run.Proved ↔ run'.Proved)) ∧
          (p.equivalence = .keep → q.equivalence = .keep → p.negation = .keep →
            (run.Proved → run'.Proved)) ∧
          (p.equivalence = .keep → q.equivalence = .expand → (run.Proved → run'.Proved)) := by
  have hfresh : Store.withConstants p falseName trueName =
      .ok (.constants p falseName trueName) := if_neg hne
  have hfresh' : Store.withConstants q falseName trueName =
      .ok (.constants q falseName trueName) := if_neg hne
  refine ⟨_, _, hfresh, hfresh', fun s t hs ht e => ?_⟩
  obtain ⟨run, hrun, hends, hiff⟩ := search_build_settles hfresh hs e
  obtain ⟨run', hrun', hends', hiff'⟩ := search_build_settles hfresh' ht e
  refine ⟨run, run', hrun, hrun', hends, hends', ?_⟩
  rw [hiff, hiff']
  refine ⟨fun hp hq => ?_, fun hp hq hpneg hqneg => ⟨?_, ?_⟩, fun hp hq hpneg h => ?_,
    fun hp hq h => ?_⟩
  · rw [SequentExpr.opaquelyValid_iff_of_expand hp, SequentExpr.opaquelyValid_iff_of_expand hq]
  · intro h
    exact h.mono hp (.inr hqneg)
  · intro h
    exact h.mono hq (.inr hpneg)
  · exact h.mono hp (.inl hpneg)
  · rw [SequentExpr.opaquelyValid_iff_of_expand hq]
    intro v hfalse htrue
    exact h.holds hfalse htrue

/-- `~a <=> b => (a -> F) <=> b`, with `F` for the false constant, is proved if negations are built
as implications, and therefore also if implications are built as negations.  It is refuted if both
are kept. -/
theorem verdict_on_rewritten_negation :
    let written : SequentExpr :=
      ⟨[.binary .iff (.not (.atom "a")) (.atom "b")],
        [.binary .iff (.binary .implies (.atom "a") (.atom "F")) (.atom "b")]⟩
    let built (policy : Policy) := written.build (.constants policy "F" "T")
    "F" ≠ "T" ∧
      (∃ run run', (built ⟨.asImplication, .keep⟩).2.search none (built ⟨.asImplication, .keep⟩).1 =
          .ok run ∧
        (built ⟨.fromImplication, .keep⟩).2.search none (built ⟨.fromImplication, .keep⟩).1 =
          .ok run' ∧ run.Proved ∧ run'.Proved) ∧
      ∃ run, (built ⟨.keep, .keep⟩).2.search none (built ⟨.keep, .keep⟩).1 = .ok run ∧
        run.Refuted := by
  intro written built
  have hne : "F" ≠ "T" := by decide
  refine ⟨hne, ?_, ?_⟩
  · obtain ⟨fresh, fresh', hfresh, hfresh', hverdict⟩ :=
      verdict_depends_on_policy ⟨.asImplication, .keep⟩ ⟨.fromImplication, .keep⟩ hne
    obtain rfl : Store.constants ⟨.asImplication, .keep⟩ "F" "T" = fresh := Except.ok.inj hfresh
    obtain rfl : Store.constants ⟨.fromImplication, .keep⟩ "F" "T" = fresh' :=
      Except.ok.inj hfresh'
    obtain ⟨run, run', hrun, hrun', -, -, -, hiff, -⟩ := hverdict _ _ .refl .refl written
    have hresult : ((built ⟨.asImplication, .keep⟩).2.search none
        (built ⟨.asImplication, .keep⟩).1).toOption.map (·.result) = some (.proof [.ax]) := by
      decide +kernel
    have hproved : run.Proved := by
      refine ⟨[.ax], ?_⟩
      simpa [built, hrun, Except.toOption] using hresult
    exact ⟨run, run', hrun, hrun', hproved, (hiff rfl rfl (by decide) (by decide)).1 hproved⟩
  · -- the two equivalences are different leaves
    have hresult : ((built ⟨.keep, .keep⟩).2.search none
        (built ⟨.keep, .keep⟩).1).toOption.map (·.result) =
          some (.saturated (built ⟨.keep, .keep⟩).1) := by
      decide +kernel
    cases hrun : (built ⟨.keep, .keep⟩).2.search none (built ⟨.keep, .keep⟩).1 with
    | error fault =>
      rw [hrun] at hresult
      cases hresult
    | ok run => exact ⟨run, rfl, _, by simpa [hrun, Except.toOption] using hresult⟩

end Search

end SequentCalculus
