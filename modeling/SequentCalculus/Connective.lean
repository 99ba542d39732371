/-!
# Connectives and kinds of formula

Propositional formulas are built from atoms with negation and four binary connectives.  The kind
of a formula is read off its outermost connective.  Equivalence is a connective like the others,
but no rule of the calculus takes an equivalence apart: `Shape` lists the four kinds that have
rules, in the order in which rules are looked for.
-/

namespace SequentCalculus

/-- The connectives that join two formulas. -/
inductive BinOp where
  | and
  | or
  | implies
  | iff
  deriving DecidableEq, Repr

/-- A connective: negation, or one that joins two formulas. -/
inductive Connective where
  | not
  | bin (op : BinOp)
  deriving DecidableEq, Repr

/-- The kind of a formula: atomic, or compound with its outermost connective. -/
inductive Kind where
  | atomic
  | compound (connective : Connective)
  deriving DecidableEq, Repr

/-- The kinds of formula that the rules of the calculus take apart. -/
inductive Shape where
  | and
  | or
  | implies
  | not
  deriving DecidableEq, Repr

/-- How a binary connective is written in formulas. -/
def BinOp.symbol : BinOp → String
  | .and => "&"
  | .or => "|"
  | .implies => "->"
  | .iff => "<=>"

namespace Connective

/-- How a connective is written in formulas. -/
def symbol : Connective → String
  | .not => "~"
  | .bin op => op.symbol

/-- The number of formulas that a connective joins. -/
def arity : Connective → Nat
  | .not => 1
  | .bin _ => 2

/-- The name of a connective in messages. -/
def name : Connective → String
  | .not => "Not"
  | .bin .and => "And"
  | .bin .or => "Or"
  | .bin .implies => "Implies"
  | .bin .iff => "Eq"

end Connective

namespace Shape

/-- All shapes, in the order in which rules are looked for. -/
def all : List Shape :=
  [.and, .or, .implies, .not]

/-- The connective of the formulas of a shape. -/
def connective : Shape → Connective
  | .and => .bin .and
  | .or => .bin .or
  | .implies => .bin .implies
  | .not => .not

/-- The kind of the formulas of a shape. -/
def kind (shape : Shape) : Kind :=
  .compound shape.connective

/-- The name of a shape inside the names of its rules. -/
def name : Shape → String
  | .and => "AND"
  | .or => "OR"
  | .implies => "IMPLIES"
  | .not => "NOT"

end Shape

namespace Kind

/-- All kinds of formula. -/
def all : List Kind :=
  [.atomic, .compound (.bin .and), .compound (.bin .or), .compound (.bin .implies),
    .compound (.bin .iff), .compound .not]

/-- How a kind is shown. -/
def label : Kind → String
  | .atomic => "ATOMIC_WFF"
  | .compound .not => "NOT_WFF"
  | .compound (.bin .and) => "AND_WFF"
  | .compound (.bin .or) => "OR_WFF"
  | .compound (.bin .implies) => "IMPLIES_WFF"
  | .compound (.bin .iff) => "EQ_WFF"

/-- The name of a kind in messages. -/
def name : Kind → String
  | .atomic => "Atomic"
  | .compound c => c.name

/-- The shape of the formulas of a kind, if some rule takes them apart. -/
def shape? : Kind → Option Shape
  | .compound .not => some .not
  | .compound (.bin .and) => some .and
  | .compound (.bin .or) => some .or
  | .compound (.bin .implies) => some .implies
  | .compound (.bin .iff) => none
  | .atomic => none

/-- Whether some rule takes the formulas of a kind apart. -/
def isDecomposable (kind : Kind) : Bool :=
  kind.shape?.isSome

/-- The place of a kind in the order of kinds. -/
def rank : Kind → Nat
  | .atomic => 0
  | .compound (.bin .and) => 1
  | .compound (.bin .or) => 2
  | .compound (.bin .implies) => 3
  | .compound (.bin .iff) => 4
  | .compound .not => 5

/-- How many kinds there are. -/
abbrev count : Nat := 6

theorem rank_lt (k : Kind) : k.rank < count := by
  rcases k with _ | _ | _ | _ | _ | _ <;> decide

/-- The rank of a kind as a place among all kinds. -/
def place (k : Kind) : Fin count :=
  ⟨k.rank, k.rank_lt⟩

/-- Kinds of the same rank are the same kind. -/
theorem rank_inj {k l : Kind} (h : k.rank = l.rank) : k = l := by
  revert h
  rcases k with _ | _ | _ | _ | _ | _ <;> rcases l with _ | _ | _ | _ | _ | _ <;>
    simp [rank]

/-- A kind has a shape exactly when it is the kind of that shape. -/
theorem shape?_eq_some_iff {k : Kind} {shape : Shape} :
    k.shape? = some shape ↔ k = shape.kind := by
  rcases k with _ | _ | _ | _ | _ | _ <;> cases shape <;>
    simp [shape?, Shape.kind, Shape.connective]

end Kind

end SequentCalculus
