import SequentCalculus.Cedent
import SequentCalculus.Reading
import SequentCalculus.Store.Tree

/-!
# Sequents

A sequent `L => R` says that if all formulas of `L` are true then so is some formula of `R`.  Both
sides are multisets.

A sequent is an axiom if it holds for a reason that needs no rule: the constant that is false
stands on the left, the constant that is true on the right, or one formula on both sides.
-/

namespace SequentCalculus

/-- Formulas on the left and on the right. -/
structure Sequent where
  left : Cedent
  right : Cedent
  deriving DecidableEq

namespace Sequent

/-- The sequent without formulas. -/
def empty : Sequent := ⟨.empty, .empty⟩

/-- One side of a sequent. -/
def side (q : Sequent) : Side → Cedent
  | .left => q.left
  | .right => q.right

/-- The sequent with one more occurrence of `f` on a side. -/
def add (q : Sequent) (side : Side) (f : Formula) : Sequent :=
  match side with
  | .left => { q with left := q.left.add f }
  | .right => { q with right := q.right.add f }

/-- The sequent with one occurrence less of `f` on a side, if there is one. -/
def erase (q : Sequent) (side : Side) (f : Formula) : Sequent :=
  match side with
  | .left => { q with left := q.left.erase f }
  | .right => { q with right := q.right.erase f }

/-- The sequent with one occurrence less of `f` on a side, where it must stand. -/
def remove (q : Sequent) (side : Side) (f : Formula) : Except Fault Sequent :=
  match side with
  | .left => (q.left.remove f).map fun left => { q with left := left }
  | .right => (q.right.remove f).map fun right => { q with right := right }

/-- The sequent with one more occurrence of each of the given formulas on the given sides. -/
def addAll (q : Sequent) (additions : List (Side × Formula)) : Sequent :=
  additions.foldl (fun q addition => q.add addition.1 addition.2) q

/-- The sequent of two lists of formulas. -/
def ofLists (left right : List Formula) : Sequent :=
  (empty.addAll (left.map (.left, ·))).addAll (right.map (.right, ·))

/-- Whether some rule takes one of the formulas apart. -/
def hasDecomposable (q : Sequent) : Bool :=
  q.left.hasDecomposable || q.right.hasDecomposable

/-- Whether the sequent is an axiom. -/
def isAxiom (q : Sequent) : Bool :=
  Formula.falsum ∈ q.left || Formula.verum ∈ q.right || q.left.meets q.right

end Sequent

/-! ### Sequents over a store -/

namespace Store

/-- The text of a cedent. -/
def cedentText (s : Store) (c : Cedent) : String :=
  ", ".intercalate (c.occurrences.map s.text)

/-- The text of a sequent: an empty side leaves no blank beside the arrow. -/
def sequentText (s : Store) (q : Sequent) : String :=
  (if q.left.isEmpty then "" else s.cedentText q.left ++ " ") ++ "=>" ++
    (if q.right.isEmpty then "" else " " ++ s.cedentText q.right)

/-- The number of connectives of all occurrences in a sequent.  Every rule lowers it, which bounds
all work on a sequent. -/
def weight (s : Store) (q : Sequent) : Nat :=
  sumBy (fun f => (s.tree f).connectives) q.left.occurrences +
    sumBy (fun f => (s.tree f).connectives) q.right.occurrences

/-- Reads a formula and builds it.  What cannot be read builds nothing. -/
def readFormula (s : Store) (text : String) : Except InputError (Formula × Store) :=
  (Expr.read text).map fun e => e.build s

end Store

/-- Builds a sequent in a store, its left side first. -/
def SequentExpr.build (s : Store) (e : SequentExpr) : Sequent × Store :=
  let left := Expr.buildAll s e.left
  let right := Expr.buildAll left.2 e.right
  (.ofLists left.1 right.1, right.2)

/-- Reads a sequent and builds it.  What cannot be read builds nothing. -/
def Store.readSequent (s : Store) (text : String) : Except InputError (Sequent × Store) :=
  (SequentExpr.read text).map fun e => e.build s

end SequentCalculus
