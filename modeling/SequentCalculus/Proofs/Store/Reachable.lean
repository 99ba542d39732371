import SequentCalculus.Proofs.Expr
import SequentCalculus.Store.Tree
import Mathlib.Data.Nat.Init
import Mathlib.Logic.Relation

/-!
# Reachable stores

A store is reachable if it comes from a fresh store, with two different names for the constants,
by any number of interning operations, each on formulas of the store as it then is (`Reachable`).
The invariant of reachable stores is `WellFormed`:

* the first two places hold atoms, the constants;
* the parts of a node are formulas of the store at smaller places;
* no node stands at two places;
* every node is one that the policy admits;
* the tables give the formulas for the keys of their nodes, and nothing else;
* the lists by kind hold the formulas of their kinds.

All but the first already hold of a store without formulas (`Coherent`), and the constants are then
added like any other atoms.

Because of it formulas with the same tree are the same formula (`WellFormed.tree_inj`), and a
formula keeps its tree while the store grows (`WellFormed.tree_extend`).

What a builder returns is summed up in `Yields`: the old nodes stay where they are, the invariant
holds, and the returned handle is a formula of the new store that stands for a given tree.  One
step of interning is `yields_intern`; every builder follows from it, up to expressions, which
yield their normal form (`yields_build`).  Building expressions is itself a sequence of interning
operations (`grows_build`), so nothing that a text can cause leaves the reachable stores.
-/

namespace SequentCalculus

/-- The nodes that a store of this policy can hold: what the policy builds in another form is not
among them. -/
def Policy.Admits (policy : Policy) : Node → Prop
  | .atom _ => True
  | .not _ => policy.negation ≠ .asImplication
  | .binary .and _ _ => True
  | .binary .or _ _ => True
  | .binary .implies _ b => ¬(policy.negation = .fromImplication ∧ b = .falsum)
  | .binary .iff _ _ => policy.equivalence = .keep

namespace Store

/-- `f` is a formula of the store: its place is taken, by a node of its kind. -/
def Owns (s : Store) (f : Formula) : Prop :=
  s.get? f.index = some f

instance (s : Store) (f : Formula) : Decidable (s.Owns f) :=
  inferInstanceAs (Decidable (s.get? f.index = some f))

theorem owns_iff {s : Store} {f : Formula} :
    s.Owns f ↔ ∃ node, s.nodes[f.index]? = some node ∧ node.kind = f.kind := by
  unfold Owns get?
  rw [Option.map_eq_some_iff]
  constructor
  · rintro ⟨node, hnode, hf⟩
    exact ⟨node, hnode, congrArg Formula.kind hf⟩
  · rintro ⟨node, hnode, hkind⟩
    exact ⟨node, hnode, by rw [hkind]⟩

theorem mem_formulas {s : Store} {f : Formula} : f ∈ s.formulas ↔ s.Owns f := by
  rw [owns_iff, formulas, List.mem_mapIdx]
  constructor
  · rintro ⟨i, hi, rfl⟩
    exact ⟨s.nodes.toList[i], by simp, rfl⟩
  · rintro ⟨node, hnode, hkind⟩
    obtain ⟨hlt, rfl⟩ := Array.getElem?_eq_some_iff.1 hnode
    refine ⟨f.index, by simpa using hlt, ?_⟩
    cases f
    simp_all

/-- `t` holds every node of `s` at its old place, and builds by the same policy. -/
structure Extends (s t : Store) : Prop where
  policy : t.policy = s.policy
  nodes : ∀ {i : Nat} {node : Node}, s.nodes[i]? = some node → t.nodes[i]? = some node

theorem Extends.refl (s : Store) : s.Extends s :=
  ⟨rfl, id⟩

theorem Extends.trans {s t u : Store} (hst : s.Extends t) (htu : t.Extends u) : s.Extends u :=
  ⟨htu.policy.trans hst.policy, fun h => htu.nodes (hst.nodes h)⟩

theorem Owns.extend {s t : Store} {f : Formula} (h : s.Owns f) (hst : s.Extends t) : t.Owns f := by
  obtain ⟨node, hnode, hkind⟩ := owns_iff.1 h
  exact owns_iff.2 ⟨node, hst.nodes hnode, hkind⟩

/-- The tree that a node stands for. -/
def nodeTree (s : Store) : Node → Expr
  | .atom name => .atom name
  | .not a => .not (s.tree a)
  | .binary op a b => .binary op (s.tree a) (s.tree b)

theorem tree_eq_nodeTree {s : Store} {f : Formula} {node : Node} (h : s.node? f = some node) :
    s.tree f = s.nodeTree node := by
  cases node with
  | atom name => exact tree_atom h
  | not a => exact tree_not h
  | binary op a b => exact tree_binary h

/-- A node stands for the same tree in two stores that agree on its parts. -/
theorem nodeTree_congr {s t : Store} {node : Node}
    (h : ∀ part ∈ node.parts, t.tree part = s.tree part) : t.nodeTree node = s.nodeTree node := by
  cases node with
  | atom name => rfl
  | not a => rw [nodeTree, nodeTree, h a (by simp [Node.parts])]
  | binary op a b =>
    rw [nodeTree, nodeTree, h a (by simp [Node.parts]), h b (by simp [Node.parts])]

/-- The tables and the lists of a store say the same as its nodes, of which none is held twice. -/
structure Coherent (s : Store) : Prop where
  /-- Parts come before what they are parts of. -/
  parts : ∀ {i : Nat} {node : Node}, s.nodes[i]? = some node →
    ∀ part ∈ node.parts, part.index < i ∧ s.Owns part
  /-- Every node is held once. -/
  distinct : ∀ {i j : Nat} {node : Node},
    s.nodes[i]? = some node → s.nodes[j]? = some node → i = j
  admitted : ∀ {i : Nat} {node : Node}, s.nodes[i]? = some node → s.policy.Admits node
  /-- The tables give each formula for the key of its node, and nothing for any other key. -/
  indexed : ∀ {key : Node.Key} {f : Formula}, s.lookup key = some f ↔
    ∃ node, s.nodes[f.index]? = some node ∧ node.kind = f.kind ∧ node.key = key
  /-- The list of a kind holds the formulas of that kind. -/
  listed : ∀ kind : Kind, s.ofKind kind = s.formulas.filter (·.kind == kind)

/-- **The invariant of reachable stores.** -/
structure WellFormed (s : Store) : Prop extends Coherent s where
  falsum : ∃ name, s.nodes[0]? = some (.atom name)
  verum : ∃ name, s.nodes[1]? = some (.atom name)

namespace WellFormed

variable {s t : Store} {f : Formula} {node : Node}

theorem owns_falsum (hs : s.WellFormed) : s.Owns .falsum := by
  obtain ⟨name, hname⟩ := hs.falsum
  exact owns_iff.2 ⟨.atom name, hname, rfl⟩

theorem owns_verum (hs : s.WellFormed) : s.Owns .verum := by
  obtain ⟨name, hname⟩ := hs.verum
  exact owns_iff.2 ⟨.atom name, hname, rfl⟩

/-- In a well-formed store the bound on the parts of a node need not be looked at. -/
theorem node?_eq_some_iff (hs : s.WellFormed) :
    s.node? f = some node ↔ s.nodes[f.index]? = some node ∧ node.kind = f.kind := by
  rw [Store.node?_eq_some_iff]
  constructor
  · rintro ⟨hnode, hkind, -⟩
    exact ⟨hnode, hkind⟩
  · rintro ⟨hnode, hkind⟩
    exact ⟨hnode, hkind, fun part hpart => (hs.parts hnode part hpart).1⟩

/-- The formulas of a well-formed store are the handles that have a node. -/
theorem owns_iff_node? (hs : s.WellFormed) : s.Owns f ↔ ∃ node, s.node? f = some node := by
  rw [owns_iff]
  exact exists_congr fun node => hs.node?_eq_some_iff.symm

theorem owns_part (hs : s.WellFormed) (hnode : s.node? f = some node) {part : Formula}
    (hpart : part ∈ node.parts) : s.Owns part :=
  (hs.parts (hs.node?_eq_some_iff.1 hnode).1 part hpart).2

theorem node?_inj (hs : s.WellFormed) {g : Formula} (hf : s.node? f = some node)
    (hg : s.node? g = some node) : f = g := by
  obtain ⟨hfnode, hfkind⟩ := hs.node?_eq_some_iff.1 hf
  obtain ⟨hgnode, hgkind⟩ := hs.node?_eq_some_iff.1 hg
  have hindex : f.index = g.index := hs.distinct hfnode hgnode
  have hkind : f.kind = g.kind := hfkind.symm.trans hgkind
  cases f
  cases g
  simp_all

theorem node?_extend (hs : s.WellFormed) (ht : t.WellFormed) (hst : s.Extends t)
    (hnode : s.node? f = some node) : t.node? f = some node := by
  obtain ⟨hget, hkind⟩ := hs.node?_eq_some_iff.1 hnode
  exact ht.node?_eq_some_iff.2 ⟨hst.nodes hget, hkind⟩

/-- The node of a formula never changes. -/
theorem node?_eq_of_extends (hs : s.WellFormed) (ht : t.WellFormed) (hst : s.Extends t)
    (hf : s.Owns f) : t.node? f = s.node? f := by
  obtain ⟨node, hnode⟩ := hs.owns_iff_node?.1 hf
  rw [hnode, hs.node?_extend ht hst hnode]

/-- **A formula keeps its tree while the store grows.**  The induction is on the place of the
formula, since its parts are at smaller places. -/
theorem tree_extend (hs : s.WellFormed) (ht : t.WellFormed) (hst : s.Extends t)
    (hf : s.Owns f) : t.tree f = s.tree f := by
  induction hn : f.index using Nat.strong_induction_on generalizing f with
  | _ n ih =>
  subst hn
  obtain ⟨node, hnode⟩ := hs.owns_iff_node?.1 hf
  have hnode' := hs.node?_extend ht hst hnode
  have hpart : ∀ part ∈ node.parts, t.tree part = s.tree part := fun part hpart =>
    ih part.index (index_lt_of_node? hnode hpart) (hs.owns_part hnode hpart) rfl
  rw [tree_eq_nodeTree hnode, tree_eq_nodeTree hnode']
  exact nodeTree_congr hpart

/-- **Different formulas have different trees.**  By induction the parts of equal trees are the same
formulas, and a node is held once. -/
theorem tree_inj (hs : s.WellFormed) {g : Formula} (hf : s.Owns f) (hg : s.Owns g)
    (h : s.tree f = s.tree g) : f = g := by
  induction hn : f.index using Nat.strong_induction_on generalizing f g with
  | _ n ih =>
  subst hn
  obtain ⟨node, hnode⟩ := hs.owns_iff_node?.1 hf
  obtain ⟨node', hnode'⟩ := hs.owns_iff_node?.1 hg
  have hpart : ∀ part ∈ node.parts, ∀ part' ∈ node'.parts, s.tree part = s.tree part' →
      part = part' := fun part hpart part' hpart' htree =>
    ih part.index (index_lt_of_node? hnode hpart) (hs.owns_part hnode hpart)
      (hs.owns_part hnode' hpart') htree rfl
  rw [tree_eq_nodeTree hnode, tree_eq_nodeTree hnode'] at h
  have hsame : node = node' := by
    cases node <;> cases node' <;> simp only [nodeTree, reduceCtorEq, Expr.atom.injEq,
      Expr.not.injEq, Expr.binary.injEq] at h
    · rw [h]
    · rw [hpart _ (by simp [Node.parts]) _ (by simp [Node.parts]) h]
    · rw [h.1, hpart _ (by simp [Node.parts]) _ (by simp [Node.parts]) h.2.1,
        hpart _ (by simp [Node.parts]) _ (by simp [Node.parts]) h.2.2]
  exact hs.node?_inj hnode (hsame ▸ hnode')

end WellFormed

/-! ### One step of interning -/

section Add

variable {s : Store} {node : Node}

theorem nodes_enter (key : Node.Key) (f : Formula) : (s.enter key f).nodes = s.nodes := by
  cases key <;> rfl

theorem policy_enter (key : Node.Key) (f : Formula) : (s.enter key f).policy = s.policy := by
  cases key <;> rfl

theorem byKind_enter (key : Node.Key) (f : Formula) : (s.enter key f).byKind = s.byKind := by
  cases key <;> rfl

/-- An entry is found under its own key, and hides no other. -/
theorem lookup_enter (key key' : Node.Key) (f : Formula) :
    (s.enter key f).lookup key' = if key' = key then some f else s.lookup key' := by
  cases key <;> cases key' <;> simp [enter, lookup, List.lookup_cons] <;> split <;> simp_all

theorem nodes_add (s : Store) (node : Node) : (s.add node).2.nodes = s.nodes.push node :=
  nodes_enter _ _

theorem policy_add (s : Store) (node : Node) : (s.add node).2.policy = s.policy :=
  policy_enter _ _

theorem lookup_add (s : Store) (node : Node) (key : Node.Key) :
    (s.add node).2.lookup key = if key = node.key then some ⟨s.size, node.kind⟩ else s.lookup key :=
  lookup_enter _ _ _

theorem formulas_add (s : Store) (node : Node) :
    (s.add node).2.formulas = s.formulas ++ [⟨s.size, node.kind⟩] := by
  simp [formulas, nodes_add, size]

theorem ofKind_add (s : Store) (node : Node) (kind : Kind) :
    (s.add node).2.ofKind kind =
      s.ofKind kind ++ if node.kind = kind then [⟨s.size, node.kind⟩] else [] := by
  have hplace : node.kind.place = kind.place ↔ node.kind = kind :=
    ⟨fun h => Kind.rank_inj (congrArg Fin.val h), fun h => by rw [h]⟩
  have hbyKind : (s.add node).2.byKind =
      s.byKind.set node.kind.place (s.byKind[node.kind.place].push ⟨s.size, node.kind⟩) :=
    byKind_enter _ _
  unfold ofKind
  rw [hbyKind, Fin.getElem_fin, Vector.getElem_set]
  simp only [Fin.val_inj, hplace]
  split
  · rename_i h
    subst h
    exact Array.toList_push ..
  · exact (List.append_nil _).symm

end Add

/-- Interning finds the node, or adds it where no place had it before. -/
theorem Coherent.intern_cases {s : Store} (hs : s.Coherent) (node : Node) :
    (∃ f, s.nodes[f.index]? = some node ∧ node.kind = f.kind ∧ s.intern node = (f, s)) ∨
    ((∀ i : Nat, s.nodes[i]? ≠ some node) ∧ s.intern node = s.add node) := by
  unfold intern
  cases h : s.find? node with
  | some f =>
    obtain ⟨node', hnode, hkind, hkey⟩ := hs.indexed.1 h
    obtain rfl := Node.key_inj hkey
    exact .inl ⟨f, hnode, hkind, rfl⟩
  | none =>
    refine .inr ⟨fun i hi => ?_, rfl⟩
    have hfound := hs.indexed (f := ⟨i, node.kind⟩).2 ⟨node, hi, rfl, rfl⟩
    rw [find?, hfound] at h
    cases h

/-- Interning a node that is there changes nothing. -/
theorem WellFormed.intern_eq {s : Store} (hs : s.WellFormed) {f : Formula} {node : Node}
    (h : s.node? f = some node) : s.intern node = (f, s) := by
  have hnode := (hs.node?_eq_some_iff.1 h).1
  rcases hs.intern_cases node with ⟨g, hg, hkind, heq⟩ | ⟨hnew, -⟩
  · rw [heq, hs.node?_inj (hs.node?_eq_some_iff.2 ⟨hg, hkind⟩) h]
  · exact absurd hnode (hnew f.index)

theorem extends_add (s : Store) (node : Node) : s.Extends (s.add node).2 := by
  refine ⟨policy_add s node, fun {i} {old} h => ?_⟩
  have hlt : i < s.nodes.size := (Array.getElem?_eq_some_iff.1 h).1
  rw [nodes_add, Array.getElem?_push, if_neg (by omega), h]

theorem getElem?_add_eq_some {s : Store} {node old : Node} {i : Nat}
    (h : (s.add node).2.nodes[i]? = some old) :
    (i = s.size ∧ old = node) ∨ s.nodes[i]? = some old := by
  rw [nodes_add, Array.getElem?_push] at h
  split at h
  · rename_i hi
    exact .inl ⟨hi, (Option.some.inj h).symm⟩
  · exact .inr h

/-- Adding a node that is not there yet keeps the store coherent, if its parts are formulas of the
store and the policy admits it. -/
theorem Coherent.add {s : Store} {node : Node} (hs : s.Coherent)
    (hnew : ∀ i : Nat, s.nodes[i]? ≠ some node) (hparts : ∀ part ∈ node.parts, s.Owns part)
    (hadmits : s.policy.Admits node) : (s.add node).2.Coherent := by
  have hext := s.extends_add node
  refine ⟨?_, ?_, ?_, ?_, ?_⟩
  · intro i old hi part hpart
    rcases getElem?_add_eq_some hi with ⟨rfl, rfl⟩ | hold
    · -- the parts of the new node are at places that were taken before
      obtain ⟨_, hget, -⟩ := owns_iff.1 (hparts part hpart)
      exact ⟨(Array.getElem?_eq_some_iff.1 hget).1, (hparts part hpart).extend hext⟩
    · obtain ⟨hlt, howns⟩ := hs.parts hold part hpart
      exact ⟨hlt, howns.extend hext⟩
  · intro i j old hi hj
    rcases getElem?_add_eq_some hi with ⟨rfl, rfl⟩ | hiold
    · rcases getElem?_add_eq_some hj with ⟨rfl, -⟩ | hjold
      · rfl
      · exact absurd hjold (hnew j)
    · rcases getElem?_add_eq_some hj with ⟨rfl, rfl⟩ | hjold
      · exact absurd hiold (hnew i)
      · exact hs.distinct hiold hjold
  · intro i old hi
    rw [hext.policy]
    rcases getElem?_add_eq_some hi with ⟨-, rfl⟩ | hold
    · exact hadmits
    · exact hs.admitted hold
  · intro key f
    rw [lookup_add]
    split
    · -- the key of the new node, which no old node has
      rename_i hkey
      constructor
      · rintro ⟨⟩
        exact ⟨node, by rw [nodes_add]; exact Array.getElem?_push_size, rfl, hkey.symm⟩
      · rintro ⟨old, hold, hkind, hkey'⟩
        obtain rfl := Node.key_inj (hkey'.trans hkey)
        rcases getElem?_add_eq_some hold with ⟨hindex, -⟩ | hold
        · cases f
          simp_all
        · exact absurd hold (hnew _)
    · -- any other key is one of an old node, or of none
      rename_i hkey
      rw [hs.indexed]
      constructor
      · rintro ⟨old, hold, h⟩
        exact ⟨old, hext.nodes hold, h⟩
      · rintro ⟨old, hold, hkind, rfl⟩
        rcases getElem?_add_eq_some hold with ⟨-, rfl⟩ | hold
        · exact absurd rfl hkey
        · exact ⟨old, hold, hkind, rfl⟩
  · intro kind
    rw [ofKind_add, formulas_add, List.filter_append, hs.listed]
    simp [List.filter_cons]

theorem WellFormed.add {s : Store} {node : Node} (hs : s.WellFormed)
    (hnew : ∀ i : Nat, s.nodes[i]? ≠ some node) (hparts : ∀ part ∈ node.parts, s.Owns part)
    (hadmits : s.policy.Admits node) : (s.add node).2.WellFormed where
  toCoherent := hs.toCoherent.add hnew hparts hadmits
  falsum := hs.falsum.imp fun _ => (s.extends_add node).nodes
  verum := hs.verum.imp fun _ => (s.extends_add node).nodes

/-- What a builder guarantees about the formula and the store that it returns: the formula is one of
the store, and stands for the tree `e`. -/
structure Yields (s : Store) (e : Expr) (result : Formula × Store) : Prop where
  extend : s.Extends result.2
  wellFormed : result.2.WellFormed
  owns : result.2.Owns result.1
  tree : result.2.tree result.1 = e

/-- **One step of interning keeps the invariant**, and returns a formula with the given node. -/
theorem yields_intern {s : Store} (node : Node) (hs : s.WellFormed)
    (hparts : ∀ part ∈ node.parts, s.Owns part) (hadmits : s.policy.Admits node) :
    s.Yields (s.nodeTree node) (s.intern node) := by
  rcases hs.intern_cases node with ⟨f, hget, hkind, heq⟩ | ⟨hnew, heq⟩
  · rw [heq]
    have hnode := hs.node?_eq_some_iff.2 ⟨hget, hkind⟩
    exact ⟨.refl s, hs, hs.owns_iff_node?.2 ⟨node, hnode⟩, tree_eq_nodeTree hnode⟩
  · rw [heq]
    have hext := s.extends_add node
    have hadd := hs.add hnew hparts hadmits
    have hget : (s.add node).2.nodes[(s.add node).1.index]? = some node := by
      rw [nodes_add]
      exact Array.getElem?_push_size
    have hnode := hadd.node?_eq_some_iff.2 ⟨hget, rfl⟩
    refine ⟨hext, hadd, hadd.owns_iff_node?.2 ⟨node, hnode⟩, ?_⟩
    rw [tree_eq_nodeTree hnode]
    exact nodeTree_congr fun part hpart => hs.tree_extend hadd hext (hparts part hpart)

/-! ### Builders -/

section Builders

variable {s : Store} {a b : Formula}

theorem yields_atom (hs : s.WellFormed) (name : String) : s.Yields (.atom name) (s.atom name) :=
  yields_intern (.atom name) hs (by simp [Node.parts]) trivial

theorem yields_not (hs : s.WellFormed) (ha : s.Owns a) :
    s.Yields (.mkNot s.policy (s.tree .falsum) (s.tree a)) (s.not a) := by
  have hparts : ∀ part ∈ (Node.not a).parts, s.Owns part := by simpa [Node.parts] using ha
  unfold Store.not Expr.mkNot
  cases hneg : s.policy.negation with
  | keep => exact yields_intern (.not a) hs hparts (by simp [Policy.Admits, hneg])
  | asImplication =>
    exact yields_intern (.binary .implies a .falsum) hs
      (by simpa [Node.parts] using ⟨ha, hs.owns_falsum⟩) (by simp [Policy.Admits, hneg])
  | fromImplication => exact yields_intern (.not a) hs hparts (by simp [Policy.Admits, hneg])

theorem yields_implies (hs : s.WellFormed) (ha : s.Owns a) (hb : s.Owns b) :
    s.Yields (.mkImplies s.policy (s.tree .falsum) (s.tree a) (s.tree b)) (s.implies a b) := by
  -- the constant is recognised by its place or by its tree
  have hfalsum : s.tree b = s.tree .falsum ↔ b = .falsum :=
    ⟨hs.tree_inj hb hs.owns_falsum, fun h => h ▸ rfl⟩
  unfold Store.implies Expr.mkImplies
  simp only [hfalsum]
  by_cases h : s.policy.negation = .fromImplication ∧ b = .falsum
  · rw [if_pos h, if_pos h]
    exact yields_intern (.not a) hs (by simpa [Node.parts] using ha)
      (by simp [Policy.Admits, h.1])
  · rw [if_neg h, if_neg h]
    exact yields_intern (.binary .implies a b) hs (by simpa [Node.parts] using ⟨ha, hb⟩) h

theorem yields_iff (hs : s.WellFormed) (ha : s.Owns a) (hb : s.Owns b) :
    s.Yields (.mkIff s.policy (s.tree .falsum) (s.tree a) (s.tree b)) (s.iff a b) := by
  unfold Store.iff Expr.mkIff
  cases heqv : s.policy.equivalence with
  | keep =>
    exact yields_intern (.binary .iff a b) hs (by simpa [Node.parts] using ⟨ha, hb⟩) heqv
  | expand =>
    -- both implications come first, each in the store that the one before it left
    have hforward := yields_implies hs ha hb
    have hext := hforward.extend
    have hwf := hforward.wellFormed
    have hbackward := yields_implies hwf (hb.extend hext) (ha.extend hext)
    have hparts : ∀ part ∈ (Node.binary .and (s.implies a b).1
        ((s.implies a b).2.implies b a).1).parts, ((s.implies a b).2.implies b a).2.Owns part := by
      simpa [Node.parts] using ⟨hforward.owns.extend hbackward.extend, hbackward.owns⟩
    have hand := yields_intern _ hbackward.wellFormed hparts trivial
    refine ⟨(hext.trans hbackward.extend).trans hand.extend, hand.wellFormed, hand.owns, ?_⟩
    rw [hand.tree, nodeTree, hbackward.tree,
      hwf.tree_extend hbackward.wellFormed hbackward.extend hforward.owns, hforward.tree,
      hs.tree_extend hwf hext ha, hs.tree_extend hwf hext hb,
      hs.tree_extend hwf hext hs.owns_falsum, hext.policy]

theorem yields_binary (hs : s.WellFormed) (op : BinOp) (ha : s.Owns a) (hb : s.Owns b) :
    s.Yields (.mkBinary s.policy (s.tree .falsum) op (s.tree a) (s.tree b)) (s.binary op a b) := by
  cases op with
  | and =>
    exact yields_intern (.binary .and a b) hs (by simpa [Node.parts] using ⟨ha, hb⟩) trivial
  | or => exact yields_intern (.binary .or a b) hs (by simpa [Node.parts] using ⟨ha, hb⟩) trivial
  | implies => exact yields_implies hs ha hb
  | iff => exact yields_iff hs ha hb

theorem yields_compound (hs : s.WellFormed) {connective : Connective} {parts : List Formula}
    {result : Formula × Store} (hparts : ∀ part ∈ parts, s.Owns part)
    (h : s.compound connective parts = .ok result) : ∃ e, s.Yields e result := by
  unfold compound at h
  split at h
  · cases h
    exact ⟨_, yields_not hs (hparts _ (by simp))⟩
  · cases h
    exact ⟨_, yields_binary hs _ (hparts _ (by simp)) (hparts _ (by simp))⟩
  · cases h

end Builders

/-! ### Sequences of interning operations -/

/-- One interning operation: an atom is built, or formulas of the store are joined by a
connective. -/
inductive Interns : Store → Store → Prop
  | atom (s : Store) (name : String) : Interns s (s.atom name).2
  | compound {s t : Store} {connective : Connective} {parts : List Formula} {f : Formula}
      (hparts : ∀ part ∈ parts, s.Owns part) (h : s.compound connective parts = .ok (f, t)) :
      Interns s t

/-- Any number of interning operations, one after the other. -/
def Grows : Store → Store → Prop :=
  Relation.ReflTransGen Interns

/-- The stores that come from a fresh one by interning operations. -/
def Reachable (s : Store) : Prop :=
  ∃ policy falseName trueName fresh,
    withConstants policy falseName trueName = .ok fresh ∧ fresh.Grows s

theorem Interns.extend_wellFormed {s t : Store} (h : s.Interns t) (hs : s.WellFormed) :
    s.Extends t ∧ t.WellFormed := by
  cases h with
  | atom name =>
    have hatom := yields_atom hs name
    exact ⟨hatom.extend, hatom.wellFormed⟩
  | compound hparts h =>
    obtain ⟨e, hcompound⟩ := yields_compound hs hparts h
    exact ⟨hcompound.extend, hcompound.wellFormed⟩

theorem Grows.extend_wellFormed {s t : Store} (h : s.Grows t) (hs : s.WellFormed) :
    s.Extends t ∧ t.WellFormed := by
  induction h with
  | refl => exact ⟨.refl s, hs⟩
  | tail _ hstep ih =>
    obtain ⟨hext, hwf⟩ := hstep.extend_wellFormed ih.2
    exact ⟨ih.1.trans hext, hwf⟩

/-! ### Fresh stores -/

theorem coherent_empty (policy : Policy) : (empty policy).Coherent where
  parts h := by simp [empty] at h
  distinct h := by simp [empty] at h
  admitted h := by simp [empty] at h
  indexed {key f} := by cases key <;> simp [empty, lookup]
  listed kind := by simp [empty, ofKind, formulas]

theorem Coherent.intern_atom {s : Store} (hs : s.Coherent) (name : String)
    (hnew : ∀ i : Nat, s.nodes[i]? ≠ some (.atom name)) :
    (s.atom name).2.Coherent ∧ (s.atom name).2.policy = s.policy ∧
      (s.atom name).2.nodes = s.nodes.push (.atom name) := by
  rcases hs.intern_cases (.atom name) with ⟨f, hget, -, -⟩ | ⟨-, heq⟩
  · exact absurd hget (hnew _)
  · rw [Store.atom, heq]
    exact ⟨hs.add hnew (by simp [Node.parts]) trivial, policy_add s _, nodes_add s _⟩

/-- A fresh store holds the two constants under their names, and nothing else. -/
theorem withConstants_eq_ok {policy : Policy} {falseName trueName : String} {s : Store}
    (h : withConstants policy falseName trueName = .ok s) :
    s.Coherent ∧ s.policy = policy ∧ s.nodes = #[.atom falseName, .atom trueName] := by
  unfold withConstants at h
  split at h
  · cases h
  · rename_i hne
    obtain rfl := Except.ok.inj h
    obtain ⟨hfalse, hpolicy, hnodes⟩ :=
      (coherent_empty policy).intern_atom falseName (by simp [empty])
    obtain ⟨htrue, hpolicy', hnodes'⟩ := hfalse.intern_atom trueName (by
      intro i hi
      rw [hnodes] at hi
      rcases i with _ | i <;> simp_all [empty])
    refine ⟨htrue, hpolicy'.trans hpolicy, ?_⟩
    rw [constants, hnodes', hnodes]
    rfl

theorem wellFormed_withConstants {policy : Policy} {falseName trueName : String} {s : Store}
    (h : withConstants policy falseName trueName = .ok s) : s.WellFormed := by
  obtain ⟨hcoherent, -, hnodes⟩ := withConstants_eq_ok h
  exact ⟨hcoherent, ⟨falseName, by rw [hnodes]; rfl⟩, ⟨trueName, by rw [hnodes]; rfl⟩⟩

theorem reachable_ofPolicy (policy : Policy) : (ofPolicy policy).Reachable :=
  ⟨policy, "false", "true", ofPolicy policy, rfl, .refl⟩

theorem Reachable.wellFormed {s : Store} (h : s.Reachable) : s.WellFormed := by
  obtain ⟨policy, falseName, trueName, fresh, hfresh, hgrows⟩ := h
  exact (hgrows.extend_wellFormed (wellFormed_withConstants hfresh)).2

theorem Reachable.grow {s t : Store} (hs : s.Reachable) (h : s.Grows t) : t.Reachable := by
  obtain ⟨policy, falseName, trueName, fresh, hfresh, hgrows⟩ := hs
  exact ⟨policy, falseName, trueName, fresh, hfresh, hgrows.trans h⟩

/-! ### Building expressions -/

/-- **Building an expression** yields a formula that stands for its normal form. -/
theorem yields_build {s : Store} (hs : s.WellFormed) (e : Expr) :
    s.Yields (.normal s.policy (s.tree .falsum) (s.tree .verum) e) (e.build s) := by
  induction e generalizing s with
  | falsum => exact ⟨.refl s, hs, hs.owns_falsum, rfl⟩
  | verum => exact ⟨.refl s, hs, hs.owns_verum, rfl⟩
  | atom name => exact yields_atom hs name
  | not a ih =>
    have ha := ih hs
    have hnot := yields_not ha.wellFormed ha.owns
    refine ⟨ha.extend.trans hnot.extend, hnot.wellFormed, hnot.owns, hnot.tree.trans ?_⟩
    rw [ha.tree, ha.extend.policy, hs.tree_extend ha.wellFormed ha.extend hs.owns_falsum,
      Expr.normal]
  | binary op a b iha ihb =>
    have ha := iha hs
    have hb := ihb ha.wellFormed
    have hext := ha.extend.trans hb.extend
    -- the left operand is still a formula of the store after the right one is built
    have hop := yields_binary hb.wellFormed op (ha.owns.extend hb.extend) hb.owns
    refine ⟨hext.trans hop.extend, hop.wellFormed, hop.owns, hop.tree.trans ?_⟩
    rw [hb.tree, ha.wellFormed.tree_extend hb.wellFormed hb.extend ha.owns, ha.tree, hext.policy,
      hs.tree_extend hb.wellFormed hext hs.owns_falsum, ha.extend.policy,
      hs.tree_extend ha.wellFormed ha.extend hs.owns_falsum,
      hs.tree_extend ha.wellFormed ha.extend hs.owns_verum, Expr.normal]

/-- Building an expression is a sequence of interning operations. -/
theorem grows_build {s : Store} (hs : s.WellFormed) (e : Expr) : s.Grows (e.build s).2 := by
  induction e generalizing s with
  | falsum => exact .refl
  | verum => exact .refl
  | atom name => exact .single (.atom s name)
  | not a ih =>
    have ha := yields_build hs a
    have hcompound : (a.build s).2.compound .not [(a.build s).1] =
        .ok ((a.build s).2.not (a.build s).1) := rfl
    exact (ih hs).tail (.compound (by simpa using ha.owns) hcompound)
  | binary op a b iha ihb =>
    have ha := yields_build hs a
    have hb := yields_build ha.wellFormed b
    have hcompound : (b.build (a.build s).2).2.compound (.bin op)
        [(a.build s).1, (b.build (a.build s).2).1] =
        .ok ((b.build (a.build s).2).2.binary op (a.build s).1 (b.build (a.build s).2).1) := rfl
    exact ((iha hs).trans (ihb ha.wellFormed)).tail
      (.compound (by simpa using ⟨ha.owns.extend hb.extend, hb.owns⟩) hcompound)

theorem grows_buildAll {s : Store} (hs : s.WellFormed) (es : List Expr) :
    s.Grows (Expr.buildAll s es).2 := by
  induction es generalizing s with
  | nil => exact .refl
  | cons e es ih => exact (grows_build hs e).trans (ih (yields_build hs e).wellFormed)

/-- The formulas of a list of expressions are formulas of the store at the end, and stand for the
normal forms, in order. -/
theorem map_tree_buildAll {s : Store} (hs : s.WellFormed) (es : List Expr) :
    (∀ f ∈ (Expr.buildAll s es).1, (Expr.buildAll s es).2.Owns f) ∧
      (Expr.buildAll s es).1.map (Expr.buildAll s es).2.tree =
        es.map (Expr.normal s.policy (s.tree .falsum) (s.tree .verum)) := by
  induction es generalizing s with
  | nil => exact ⟨by simp [Expr.buildAll], rfl⟩
  | cons e es ih =>
    have he := yields_build hs e
    obtain ⟨howns, htrees⟩ := ih he.wellFormed
    -- the first formula keeps its tree while the others are built
    obtain ⟨hext, hwf⟩ := (grows_buildAll he.wellFormed es).extend_wellFormed he.wellFormed
    rw [Expr.buildAll]
    constructor
    · intro f hf
      rcases List.mem_cons.1 hf with rfl | hf
      · exact he.owns.extend hext
      · exact howns f hf
    · rw [List.map_cons, List.map_cons, htrees, he.wellFormed.tree_extend hwf hext he.owns, he.tree,
        he.extend.policy, hs.tree_extend he.wellFormed he.extend hs.owns_falsum,
        hs.tree_extend he.wellFormed he.extend hs.owns_verum]

end Store

end SequentCalculus
