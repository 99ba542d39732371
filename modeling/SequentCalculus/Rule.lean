import SequentCalculus.Sequent

/-!
# Rules

A logical rule takes one formula apart, its principal formula:

```text
   A, B, L => R             L => A, R    L => B, R
  --------------- LEFT_AND  ---------------------- RIGHT_AND
   A & B, L => R                L => A & B, R

   A, L => R    B, L => R             L => A, B, R
  ------------------------ LEFT_OR   --------------- RIGHT_OR
        A | B, L => R                 L => A | B, R

   L => A, R    B, L => R                  A, L => B, R
  ------------------------ LEFT_IMPLIES   ---------------- RIGHT_IMPLIES
       A -> B, L => R                      L => A -> B, R

    L => A, R               A, L => R
  ------------- LEFT_NOT  ------------- RIGHT_NOT
    ~A, L => R              L => ~A, R
```

A rule is applied from the conclusion up: the goal below the line is replaced by the subgoals
above it.  The rule `AX` has no subgoals and closes the sequents that are axioms.
-/

namespace SequentCalculus

/-- What replaces a formula that stands on a side: for each subgoal, the formulas that it gains and
the sides where it gains them.  Atoms and equivalences are not replaced. -/
def Node.branches (side : Side) : Node → Option (List (List (Side × Formula)))
  | .binary .and a b =>
    match side with
    | .left => some [[(.left, a), (.left, b)]]
    | .right => some [[(.right, a)], [(.right, b)]]
  | .binary .or a b =>
    match side with
    | .left => some [[(.left, a)], [(.left, b)]]
    | .right => some [[(.right, a), (.right, b)]]
  | .binary .implies a b =>
    match side with
    | .left => some [[(.right, a)], [(.left, b)]]
    | .right => some [[(.left, a), (.right, b)]]
  | .not a =>
    match side with
    | .left => some [[(.right, a)]]
    | .right => some [[(.left, a)]]
  | .binary .iff _ _ => none
  | .atom _ => none

/-- A rule of the calculus with its principal formula. -/
inductive Rule where
  /-- Closes an axiom. -/
  | ax
  /-- Takes the principal formula apart on a side. -/
  | logical (side : Side) (shape : Shape) (principal : Formula)
  deriving DecidableEq, Repr

/-- What comes of applying a rule. -/
inductive Application where
  /-- The goal is an axiom and closed. -/
  | closed
  /-- The goal is no axiom and stays open. -/
  | failed
  /-- The goal is replaced by these, the first branch first. -/
  | subgoals (goals : List Sequent)
  deriving DecidableEq

namespace Rule

/-- The rule without its principal formula. -/
def name : Rule → RuleName
  | .ax => .ax
  | .logical side shape _ => .logical side shape

/-- The principal formula. -/
def principal? : Rule → Option Formula
  | .ax => none
  | .logical _ _ principal => some principal

/-- The side on which the principal formula stands. -/
def side? : Rule → Option Side
  | .ax => none
  | .logical side _ _ => some side

/-- The kind of the principal formula. -/
def kind? : Rule → Option Kind
  | .ax => none
  | .logical _ shape _ => some shape.kind

/-- Whether the rule closes sequents. -/
def isAx (r : Rule) : Bool :=
  r == .ax

/-- The rule that takes a formula apart on a side, if its kind has one. -/
def takingApart? (side : Side) (f : Formula) : Option Rule :=
  f.kind.shape?.map fun shape => .logical side shape f

/-- The subgoals of a logical rule, the first branch first.  The principal formula must have the
rule's kind and stand on the rule's side. -/
def subgoals (s : Store) (r : Rule) (goal : Sequent) : Except Fault (List Sequent) :=
  match r with
  | .ax => .error (.noSubgoals r.name)
  | .logical side shape f =>
    if f.kind ≠ shape.kind then .error (.wrongKind r.name)
    else if f ∉ goal.side side then .error (.absentPrincipal r.name side)
    else
      match (s.node? f).bind (·.branches side) with
      | none => .error (.foreignFormula f)
      | some branches => .ok (branches.map (goal.erase side f).addAll)

/-- Applies a rule to a goal. -/
def apply (s : Store) (r : Rule) (goal : Sequent) : Except Fault Application :=
  match r with
  | .ax => .ok (if goal.isAxiom then .closed else .failed)
  | .logical side shape f => (subgoals s (.logical side shape f) goal).map .subgoals

/-- A rule that replaces the goal does so by its subgoals. -/
theorem apply_eq_subgoals_iff {s : Store} {r : Rule} {goal : Sequent} {goals : List Sequent} :
    r.apply s goal = .ok (.subgoals goals) ↔ r.subgoals s goal = .ok goals := by
  rcases r with _ | ⟨side, shape, f⟩
  · rw [apply, subgoals]
    split <;> simp
  · rw [apply]
    cases subgoals s (.logical side shape f) goal <;> simp [Except.map]

/-- Only the closing rule fails, and only on a goal that is no axiom. -/
theorem apply_eq_failed_iff {s : Store} {r : Rule} {goal : Sequent} :
    r.apply s goal = .ok .failed ↔ r = .ax ∧ goal.isAxiom = false := by
  cases r with
  | ax => simp [apply]
  | logical side shape f =>
    rw [apply]
    cases subgoals s (.logical side shape f) goal <;> simp [Except.map]

end Rule

/-- One of the subgoals of a rule. -/
def Application.subgoal (goals : List Sequent) (index : Nat) : Except Fault Sequent :=
  match goals[index]? with
  | some goal => .ok goal
  | none => .error .noSuchSubgoal

/-- The text of a rule: its name, and its principal formula if it has one. -/
def Store.ruleText (s : Store) (r : Rule) : String :=
  match r with
  | .ax => r.name.text
  | .logical _ _ f => r.name.text ++ " " ++ s.text f

namespace Sequent

/-- All rules that can be applied to a sequent: by shape, within a shape the left side first, then
by the order of the formulas, and the closing rule last. -/
def applicableRules (q : Sequent) : List Rule :=
  Shape.all.flatMap (fun shape =>
    (q.left.ofKind shape.kind).filterMap (Rule.takingApart? .left) ++
      (q.right.ofKind shape.kind).filterMap (Rule.takingApart? .right)) ++
    if q.isAxiom then [.ax] else []

end Sequent

end SequentCalculus
