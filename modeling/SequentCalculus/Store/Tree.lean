import SequentCalculus.Store
import SequentCalculus.SumBy

/-!
# Formulas read back as trees

A formula stands for the tree that its node, the nodes of its subformulas and so on spell out.
`Store.node?` only gives out nodes whose parts come before them, so reading a tree back always
ends; every node that the store itself appends is of this kind.

The text of a formula is the text of its tree.  Its connectives are counted with a list of
formulas still to be looked at, a subformula once for every place where it occurs.
-/

namespace SequentCalculus.Store

/-- The node of a formula; `none` for a handle that is not one of this store's. -/
def node? (s : Store) (f : Formula) : Option Node :=
  s.nodes[f.index]?.filter fun node =>
    node.kind == f.kind && node.parts.all (·.index < f.index)

/-- What it takes to be the node of a formula. -/
theorem node?_eq_some_iff {s : Store} {f : Formula} {node : Node} :
    s.node? f = some node ↔
      s.nodes[f.index]? = some node ∧ node.kind = f.kind ∧
        ∀ part ∈ node.parts, part.index < f.index := by
  simp [node?, Option.filter_eq_some_iff]

/-- The parts of a formula come before it. -/
theorem index_lt_of_node? {s : Store} {f part : Formula} {node : Node}
    (h : s.node? f = some node) (hpart : part ∈ node.parts) : part.index < f.index :=
  (node?_eq_some_iff.1 h).2.2 part hpart

/-- The name of an atom. -/
def name? (s : Store) (f : Formula) : Option String :=
  match s.node? f with
  | some (.atom name) => some name
  | _ => none

/-- The outermost connective of a compound formula. -/
def connective? (s : Store) (f : Formula) : Option Connective :=
  match s.node? f with
  | some (.not _) => some .not
  | some (.binary op _ _) => some (.bin op)
  | _ => none

/-- The immediate subformulas of a formula. -/
def parts (s : Store) (f : Formula) : List Formula :=
  match s.node? f with
  | some node => node.parts
  | none => []

/-- The tree that a formula stands for.  A handle of no formula is read as an atom named after its
place. -/
def tree (s : Store) (f : Formula) : Expr :=
  match h : s.node? f with
  | some (.atom name) => .atom name
  | some (.not a) =>
    have : a.index < f.index := index_lt_of_node? h (by simp [Node.parts])
    .not (s.tree a)
  | some (.binary op a b) =>
    have : a.index < f.index := index_lt_of_node? h (by simp [Node.parts])
    have : b.index < f.index := index_lt_of_node? h (by simp [Node.parts])
    .binary op (s.tree a) (s.tree b)
  | none => .atom s!"#{f.index}"
termination_by f.index

theorem tree_atom {s : Store} {f : Formula} {name : String}
    (h : s.node? f = some (.atom name)) : s.tree f = .atom name := by
  rw [tree]; split <;> simp_all

theorem tree_not {s : Store} {f a : Formula} (h : s.node? f = some (.not a)) :
    s.tree f = .not (s.tree a) := by
  rw [tree]; split <;> simp_all

theorem tree_binary {s : Store} {f a b : Formula} {op : BinOp}
    (h : s.node? f = some (.binary op a b)) : s.tree f = .binary op (s.tree a) (s.tree b) := by
  rw [tree]; split <;> simp_all

/-- The text of a formula. -/
def text (s : Store) (f : Formula) : String :=
  (s.tree f).text

/-- Adds the connectives of the pending formulas to those counted so far. -/
def countConnectives (s : Store) (pending : List Formula) (counted : Nat) : Nat :=
  match pending with
  | [] => counted
  | f :: rest =>
    match h : s.node? f with
    | some (.not a) =>
      have := tree_not h
      s.countConnectives (a :: rest) (counted + 1)
    | some (.binary _ a b) =>
      have := tree_binary h
      s.countConnectives (a :: b :: rest) (counted + 1)
    | _ => s.countConnectives rest counted
termination_by sumBy (fun f => 2 * (s.tree f).connectives + 1) pending
decreasing_by
  all_goals simp only [sumBy_cons]
  · rw [this, Expr.connectives]; omega
  · rw [this, Expr.connectives]; omega
  · omega

/-- The number of connectives of a formula, each occurrence counted. -/
def connectives (s : Store) (f : Formula) : Nat :=
  s.countConnectives [f] 0

/-- The pending formulas add the connectives of their trees. -/
theorem countConnectives_eq (s : Store) (pending : List Formula) (counted : Nat) :
    s.countConnectives pending counted =
      counted + sumBy (fun f => (s.tree f).connectives) pending := by
  fun_induction countConnectives s pending counted with
  | case1 => simp
  | case2 counted f rest a h htree ih =>
    rw [ih, sumBy_cons, sumBy_cons, htree, Expr.connectives]
    omega
  | case3 counted f rest op a b h htree ih =>
    rw [ih, sumBy_cons, sumBy_cons, sumBy_cons, htree, Expr.connectives]
    omega
  | case4 counted f rest hnot hbinary ih =>
    -- an atom, or a handle that is read as one
    have hleaf : (s.tree f).connectives = 0 := by
      rw [tree]
      split <;> simp_all [Expr.connectives]
    rw [ih, sumBy_cons, hleaf]
    omega

/-- The loop counts the connectives of the tree. -/
theorem connectives_eq (s : Store) (f : Formula) : s.connectives f = (s.tree f).connectives := by
  rw [connectives, countConnectives_eq, sumBy_cons, sumBy_nil]
  omega

end SequentCalculus.Store
