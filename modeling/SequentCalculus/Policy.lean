/-!
# Policies

A store may build other formulas in place of negations, implications and equivalences, so that the
rules of the calculus meet fewer connectives.
-/

namespace SequentCalculus

/-- What becomes of negations. -/
inductive Negation where
  /-- Negations and implications stay as they are. -/
  | keep
  /-- `~A` is built as `A -> false`. -/
  | asImplication
  /-- `A -> false` is built as `~A`. -/
  | fromImplication
  deriving DecidableEq, Repr

/-- What becomes of equivalences. -/
inductive Equivalence where
  /-- Equivalences stay as they are. -/
  | keep
  /-- `A <=> B` is built as `(A -> B) & (B -> A)`. -/
  | expand
  deriving DecidableEq, Repr

/-- How a store represents negations and equivalences. -/
structure Policy where
  negation : Negation := .keep
  equivalence : Equivalence := .expand
  deriving DecidableEq, Repr

/-- A name that no policy has. -/
inductive PolicyError where
  | negation (name : String)
  | equivalence (name : String)
  deriving DecidableEq, Repr

/-- The wording of a policy error. -/
def PolicyError.message : PolicyError → String
  | .negation name => s!"{name}: not a valid negation policy"
  | .equivalence name => s!"{name}: not a valid equivalence policy"

/-- The treatment of negations called `name`. -/
def Negation.ofName (name : String) : Except PolicyError Negation :=
  match name with
  | "keep" => .ok .keep
  | "implication" => .ok .asImplication
  | "from-implication" => .ok .fromImplication
  | _ => .error (.negation name)

/-- The treatment of equivalences called `name`. -/
def Equivalence.ofName (name : String) : Except PolicyError Equivalence :=
  match name with
  | "keep" => .ok .keep
  | "expand" => .ok .expand
  | _ => .error (.equivalence name)

end SequentCalculus
