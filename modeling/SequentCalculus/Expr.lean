import SequentCalculus.Connective

/-!
# Expressions

An expression is a formula as it is written: a tree of connectives over the two constants and
named atoms, before a store's policy applies and before anything is shared.  It is what the reader
produces, and also what a formula of a store is read back into for printing.
-/

namespace SequentCalculus

/-- A formula as a tree. -/
inductive Expr where
  | falsum
  | verum
  | atom (name : String)
  | not (operand : Expr)
  | binary (op : BinOp) (left right : Expr)
  deriving DecidableEq, Repr

namespace Expr

/-- The largest number of connectives on a path from the root to a leaf. -/
def height : Expr → Nat
  | .falsum => 0
  | .verum => 0
  | .atom _ => 0
  | .not a => a.height + 1
  | .binary _ a b => max a.height b.height + 1

/-- The number of connectives, each occurrence counted. -/
def connectives : Expr → Nat
  | .falsum => 0
  | .verum => 0
  | .atom _ => 0
  | .not a => a.connectives + 1
  | .binary _ a b => a.connectives + b.connectives + 1

/-- The usual text: negation in front, every binary connective between its operands and in
parentheses. -/
def text : Expr → String
  | .falsum => "false"
  | .verum => "true"
  | .atom name => name
  | .not a => "~" ++ a.text
  | .binary op a b => "(" ++ a.text ++ " " ++ op.symbol ++ " " ++ b.text ++ ")"

end Expr

/-- A sequent as it is written: expressions on the left and on the right. -/
structure SequentExpr where
  left : List Expr
  right : List Expr
  deriving DecidableEq, Repr

end SequentCalculus
