import SequentCalculus.Rule

/-!
# The strategy

The search takes formulas apart as long as there are any, on the left before the right, and tries
the closing rule once when nothing is left to take apart.
-/

namespace SequentCalculus

/-- What was last done on a branch. -/
inductive LastStep where
  /-- Nothing yet. -/
  | start
  /-- A logical rule was applied. -/
  | logical
  /-- The closing rule was tried. -/
  | closing
  deriving DecidableEq, Repr

/-- The step that a rule makes. -/
def LastStep.of : Rule → LastStep
  | .ax => .closing
  | .logical _ _ _ => .logical

/-- The rule to apply next; `none` if the branch is finished. -/
def Sequent.nextRule (q : Sequent) (last : LastStep) : Option Rule :=
  match q.left.firstDecomposable? with
  | some f => Rule.takingApart? .left f
  | none =>
    match q.right.firstDecomposable? with
    | some f => Rule.takingApart? .right f
    | none => if last = .closing then none else some .ax

/-- After the closing rule was tried on a branch, no rule is left for it. -/
theorem Sequent.nextRule_closing_eq_none {q : Sequent} {last : LastStep}
    (h : q.nextRule last = some .ax) : q.nextRule .closing = none := by
  unfold nextRule at h ⊢
  cases hleft : q.left.firstDecomposable? with
  | some f => simp [hleft, Rule.takingApart?] at h
  | none =>
    cases hright : q.right.firstDecomposable? with
    | some f => simp [hleft, hright, Rule.takingApart?] at h
    | none => rfl

/-- The closing rule is not tried twice in a row. -/
theorem Sequent.last_ne_closing_of_nextRule {q : Sequent} {last : LastStep}
    (h : q.nextRule last = some .ax) : last ≠ .closing := by
  rintro rfl
  rw [nextRule_closing_eq_none h] at h
  cases h

end SequentCalculus
