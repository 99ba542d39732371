import SequentCalculus.Expr
import SequentCalculus.Fault
import SequentCalculus.Policy

/-!
# The store of formulas

A store holds every formula once.  A formula is built from formulas of the same store, which are
therefore at smaller places; it is looked up among the formulas that are there, and only one that
is not found is appended.  Nothing is ever removed or moved, so a handle keeps its meaning while
the store grows.

Besides the nodes themselves a store keeps three things up to date: a table of the atoms by name, a
table of the compound formulas by connective and parts, and a list of the formulas of each kind.
Looking a formula up goes through the tables only.

Building follows the store's policy: another formula with the same meaning may be looked up in
place of a negation, an implication or an equivalence.
-/

namespace SequentCalculus

/-- One layer of a formula: an atom, or a connective over formulas of the same store. -/
inductive Node where
  | atom (name : String)
  | not (operand : Formula)
  | binary (op : BinOp) (left right : Formula)
  deriving DecidableEq, Repr

namespace Node

/-- The kind of the formula whose outermost layer is this node. -/
def kind : Node → Kind
  | .atom _ => .atomic
  | .not _ => .compound .not
  | .binary op _ _ => .compound (.bin op)

/-- The immediate subformulas, from left to right. -/
def parts : Node → List Formula
  | .atom _ => []
  | .not a => [a]
  | .binary _ a b => [a, b]

/-- What a compound formula is looked up by: its connective and its parts. -/
abbrev CompoundKey : Type :=
  Connective × Formula × Option Formula

/-- What a formula is looked up by: an atom by its name, or a compound formula. -/
abbrev Key : Type :=
  String ⊕ CompoundKey

/-- What the formula whose outermost layer is this node is looked up by. -/
def key : Node → Key
  | .atom name => .inl name
  | .not a => .inr (.not, a, none)
  | .binary op a b => .inr (.bin op, a, some b)

/-- Different nodes are looked up differently. -/
theorem key_inj {node node' : Node} (h : node.key = node'.key) : node = node' := by
  cases node <;> cases node' <;> simp_all [key]

end Node

/-- A collection of formulas without repetition, with the policy by which it builds them. -/
structure Store where
  policy : Policy
  /-- The nodes in the order of their construction; the constants come first. -/
  nodes : Array Node
  /-- The atoms by name. -/
  atoms : List (String × Formula)
  /-- The compound formulas by connective and parts. -/
  compounds : List (Node.CompoundKey × Formula)
  /-- The formulas of each kind in the order of their construction. -/
  byKind : Vector (Array Formula) Kind.count
  deriving DecidableEq, Repr

namespace Store

/-- A store without any formula, not even the constants. -/
def empty (policy : Policy) : Store :=
  ⟨policy, #[], [], [], .replicate Kind.count #[]⟩

/-- The number of formulas. -/
def size (s : Store) : Nat :=
  s.nodes.size

/-- Whether there is no formula at all. -/
def isEmpty (s : Store) : Bool :=
  s.size == 0

/-- The formula at a place. -/
def get? (s : Store) (index : Nat) : Option Formula :=
  s.nodes[index]?.map fun node => ⟨index, node.kind⟩

/-- All formulas in the order of their construction. -/
def formulas (s : Store) : List Formula :=
  s.nodes.toList.mapIdx fun index node => ⟨index, node.kind⟩

/-- The formulas of one kind in the order of their construction. -/
def ofKind (s : Store) (kind : Kind) : List Formula :=
  s.byKind[kind.place].toList

/-! ### Looking nodes up and adding them -/

/-- The formula that the tables give for a key. -/
def lookup (s : Store) : Node.Key → Option Formula
  | .inl name => s.atoms.lookup name
  | .inr key => s.compounds.lookup key

/-- Enters a formula under a key into the table for such keys. -/
def enter (s : Store) (key : Node.Key) (f : Formula) : Store :=
  match key with
  | .inl name => { s with atoms := (name, f) :: s.atoms }
  | .inr key => { s with compounds := (key, f) :: s.compounds }

/-- Appends a node, as the latest formula of its kind. -/
def register (s : Store) (node : Node) : Formula × Store :=
  let f : Formula := ⟨s.size, node.kind⟩
  (f, { s with
    nodes := s.nodes.push node
    byKind := s.byKind.set node.kind.place (s.byKind[node.kind.place].push f) })

/-- Appends a node and enters it into its table. -/
def add (s : Store) (node : Node) : Formula × Store :=
  let new := s.register node
  (new.1, new.2.enter node.key new.1)

/-- The formula whose outermost layer is `node`, if the store holds it. -/
def find? (s : Store) (node : Node) : Option Formula :=
  s.lookup node.key

/-- The formula whose outermost layer is `node`, which is added unless the store holds it. -/
def intern (s : Store) (node : Node) : Formula × Store :=
  match s.find? node with
  | some f => (f, s)
  | none => s.add node

/-! ### Building formulas -/

/-- The atom called `name`. -/
def atom (s : Store) (name : String) : Formula × Store :=
  s.intern (.atom name)

/-- A store that holds the two constants, which are atoms like any other, and nothing else. -/
def constants (policy : Policy) (falseName trueName : String) : Store :=
  (((empty policy).atom falseName).2.atom trueName).2

/-- A store that holds the two constants under the given names and nothing else.  The names must
differ. -/
def withConstants (policy : Policy) (falseName trueName : String) : Except Fault Store :=
  if falseName = trueName then .error .sameConstants
  else .ok (constants policy falseName trueName)

/-- A store that holds the constants `false` and `true` and nothing else. -/
def ofPolicy (policy : Policy) : Store :=
  constants policy "false" "true"

/-- The negation of `a`, which the policy may turn into an implication. -/
def not (s : Store) (a : Formula) : Formula × Store :=
  match s.policy.negation with
  | .asImplication => s.intern (.binary .implies a .falsum)
  | .keep => s.intern (.not a)
  | .fromImplication => s.intern (.not a)

/-- The implication from `a` to `b`, which the policy may turn into a negation. -/
def implies (s : Store) (a b : Formula) : Formula × Store :=
  if s.policy.negation = .fromImplication ∧ b = .falsum then s.intern (.not a)
  else s.intern (.binary .implies a b)

/-- The equivalence of `a` and `b`, which the policy may turn into two implications. -/
def iff (s : Store) (a b : Formula) : Formula × Store :=
  match s.policy.equivalence with
  | .keep => s.intern (.binary .iff a b)
  | .expand =>
    let forward := s.implies a b
    let backward := forward.2.implies b a
    backward.2.intern (.binary .and forward.1 backward.1)

/-- The formula that joins `a` and `b` by a binary connective. -/
def binary (s : Store) (op : BinOp) (a b : Formula) : Formula × Store :=
  match op with
  | .and => s.intern (.binary .and a b)
  | .or => s.intern (.binary .or a b)
  | .implies => s.implies a b
  | .iff => s.iff a b

/-- The formula that joins `parts` by a connective, which must get as many as its arity. -/
def compound (s : Store) (connective : Connective) (parts : List Formula) :
    Except Fault (Formula × Store) :=
  match connective, parts with
  | .not, [a] => .ok (s.not a)
  | .bin op, [a, b] => .ok (s.binary op a b)
  | connective, _ => .error (.wrongArity connective)

end Store

/-- Builds an expression in a store, subformulas first and from left to right. -/
def Expr.build (s : Store) : Expr → Formula × Store
  | .falsum => (.falsum, s)
  | .verum => (.verum, s)
  | .atom name => s.atom name
  | .not a =>
    let operand := a.build s
    operand.2.not operand.1
  | .binary op a b =>
    let left := a.build s
    let right := b.build left.2
    right.2.binary op left.1 right.1

/-- Builds a list of expressions in a store, from left to right. -/
def Expr.buildAll (s : Store) : List Expr → List Formula × Store
  | [] => ([], s)
  | e :: es =>
    let first := e.build s
    let others := buildAll first.2 es
    (first.1 :: others.1, others.2)

end SequentCalculus
