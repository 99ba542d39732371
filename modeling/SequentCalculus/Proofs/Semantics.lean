import SequentCalculus.Proofs.Sequent

/-!
# Truth

Two readings of formulas are used.

* The classical one is that of expressions (`Expr.eval`): a valuation gives the atoms their truth
  values by name.  A formula of a store is read through its tree.
* The opaque one belongs to formulas of a store: an `Assignment` gives truth values to the formulas
  that no rule takes apart, atoms and equivalences alike, with the two constants fixed.  The other
  connectives are read by their truth tables (`Store.eval`).  It is the reading under which the
  rules of the calculus are complete, since nothing inside an equivalence is ever looked at.
  Because different formulas have different trees, it is also a reading of trees
  (`Store.eval_eq_opaqueEval`, `Store.forall_assignment_iff_forall_leaf`).

Every valuation that respects the names of the constants is an assignment (`Store.assignment`), so
what holds opaquely holds classically.  In a store that expands equivalences there is nothing to be
opaque about, and every assignment is a valuation (`Store.eval_valuation`).

A sequent holds if some formula on its left is false or some formula on its right is true
(`Sequent.Holds`), and otherwise it fails (`Sequent.Fails`).  An axiom holds under every assignment
(`Sequent.holds_of_isAxiom`), and a saturated sequent that is no axiom fails under one
(`Sequent.exists_fails_of_saturated`).  A sequent that is built in a store holds classically exactly
when the sequent that was written does (`Store.holds_build_iff`).
-/

namespace SequentCalculus

/-! ### Sequents -/

/-- The truth value with which a formula on this side makes its sequent hold. -/
def Side.goodValue : Side → Bool
  | .left => false
  | .right => true

namespace Sequent

variable {value value' : Formula → Bool} {q : Sequent} {side : Side} {f : Formula}

/-- Some formula on the left is false, or some formula on the right is true. -/
def Holds (value : Formula → Bool) (q : Sequent) : Prop :=
  (∃ f ∈ q.left, value f = false) ∨ ∃ f ∈ q.right, value f = true

/-- All formulas on the left are true, and all formulas on the right are false. -/
def Fails (value : Formula → Bool) (q : Sequent) : Prop :=
  (∀ f ∈ q.left, value f = true) ∧ ∀ f ∈ q.right, value f = false

theorem holds_iff_side :
    q.Holds value ↔ ∃ side, ∃ f ∈ q.side side, value f = side.goodValue := by
  constructor
  · rintro (⟨f, hf, hvalue⟩ | ⟨f, hf, hvalue⟩)
    · exact ⟨.left, f, hf, hvalue⟩
    · exact ⟨.right, f, hf, hvalue⟩
  · rintro ⟨_ | _, f, hf, hvalue⟩
    · exact .inl ⟨f, hf, hvalue⟩
    · exact .inr ⟨f, hf, hvalue⟩

theorem not_holds_iff : ¬q.Holds value ↔ q.Fails value := by
  simp [Holds, Fails]

/-- Only the values of the formulas in a sequent matter. -/
theorem holds_congr (h : ∀ side, ∀ f ∈ q.side side, value f = value' f) :
    q.Holds value ↔ q.Holds value' := by
  rw [holds_iff_side, holds_iff_side]
  refine exists_congr fun side => exists_congr fun f => and_congr_right fun hf => ?_
  rw [h side f hf]

theorem fails_congr (h : ∀ side, ∀ f ∈ q.side side, value f = value' f) :
    q.Fails value ↔ q.Fails value' := by
  rw [← not_holds_iff, ← not_holds_iff, holds_congr h]

theorem holds_add :
    (q.add side f).Holds value ↔ value f = side.goodValue ∨ q.Holds value := by
  rw [holds_iff_side, holds_iff_side]
  constructor
  · rintro ⟨side', g, hg, hvalue⟩
    rcases mem_side_add.1 hg with ⟨rfl, rfl⟩ | hg
    · exact .inl hvalue
    · exact .inr ⟨side', g, hg, hvalue⟩
  · rintro (hvalue | ⟨side', g, hg, hvalue⟩)
    · exact ⟨side, f, mem_side_add.2 (.inl ⟨rfl, rfl⟩), hvalue⟩
    · exact ⟨side', g, mem_side_add.2 (.inr hg), hvalue⟩

theorem holds_addAll {additions : List (Side × Formula)} :
    (q.addAll additions).Holds value ↔
      (∃ addition ∈ additions, value addition.2 = addition.1.goodValue) ∨ q.Holds value := by
  induction additions generalizing q with
  | nil => simp [addAll]
  | cons addition additions ih =>
    rw [addAll_cons, ih, holds_add]
    simp only [List.mem_cons, exists_eq_or_imp]
    rw [or_left_comm, or_assoc]

end Sequent

/-! ### The opaque reading -/

/-- Truth values for the formulas that no rule takes apart.  The constants have theirs fixed. -/
structure Assignment where
  leaf : Formula → Bool
  leaf_falsum : leaf .falsum = false
  leaf_verum : leaf .verum = true

namespace Store

variable {s : Store} {α : Assignment} {f a b : Formula}

/-- The truth value of a formula when atoms and equivalences have the values that `α` gives
them. -/
def eval (s : Store) (α : Assignment) (f : Formula) : Bool :=
  match h : s.node? f with
  | some (.not a) =>
    have : a.index < f.index := index_lt_of_node? h (by simp [Node.parts])
    !s.eval α a
  | some (.binary op a b) =>
    have : a.index < f.index := index_lt_of_node? h (by simp [Node.parts])
    have : b.index < f.index := index_lt_of_node? h (by simp [Node.parts])
    if op = .iff then α.leaf f else op.eval (s.eval α a) (s.eval α b)
  | some (.atom _) => α.leaf f
  | none => α.leaf f
termination_by f.index

theorem eval_not (h : s.node? f = some (.not a)) : s.eval α f = !s.eval α a := by
  rw [eval]; split <;> simp_all

theorem eval_binary {op : BinOp} (h : s.node? f = some (.binary op a b)) (hop : op ≠ .iff) :
    s.eval α f = op.eval (s.eval α a) (s.eval α b) := by
  rw [eval]; split <;> simp_all

theorem eval_iff (h : s.node? f = some (.binary .iff a b)) : s.eval α f = α.leaf f := by
  rw [eval]; split <;> simp_all

theorem eval_atom {name : String} (h : s.node? f = some (.atom name)) :
    s.eval α f = α.leaf f := by
  rw [eval]; split <;> simp_all

theorem node_of_saturated {node : Node} (hnode : s.node? f = some node)
    (h : ∀ shape : Shape, f.kind ≠ shape.kind) :
    (∃ name, node = .atom name) ∨ ∃ a b, node = .binary .iff a b := by
  have hkind : node.kind = f.kind := (node?_eq_some_iff.1 hnode).2.1
  cases node with
  | atom name => exact .inl ⟨name, rfl⟩
  | not a => exact absurd hkind.symm (h .not)
  | binary op a b =>
    cases op with
    | and => exact absurd hkind.symm (h .and)
    | or => exact absurd hkind.symm (h .or)
    | implies => exact absurd hkind.symm (h .implies)
    | iff => exact .inr ⟨a, b, rfl⟩

theorem saturated_of_kind (h : f.kind = .atomic ∨ f.kind = .compound (.bin .iff)) (shape : Shape) :
    f.kind ≠ shape.kind := by
  rcases h with h | h <;> rw [h] <;> cases shape <;> decide

/-- A formula that no rule takes apart has the value that it is assigned, also if it is not one of
the store's. -/
theorem eval_of_saturated (h : ∀ shape : Shape, f.kind ≠ shape.kind) :
    s.eval α f = α.leaf f := by
  cases hnode : s.node? f with
  | none => rw [eval]; split <;> simp_all
  | some node =>
    rcases node_of_saturated hnode h with ⟨name, rfl⟩ | ⟨a, b, rfl⟩
    · exact eval_atom hnode
    · exact eval_iff hnode

/-- **The opaque reading is one of trees**: if the leaves have the values that `leaf` gives to their
trees, then so does every formula. -/
theorem eval_eq_opaqueEval (hs : s.WellFormed) {leaf : Expr → Bool}
    (hleaf : ∀ g, s.Owns g → (∀ shape : Shape, g.kind ≠ shape.kind) → α.leaf g = leaf (s.tree g))
    (hf : s.Owns f) : s.eval α f = (s.tree f).opaqueEval leaf := by
  -- the induction is on the place of the formula, since parts are at smaller places
  induction hn : f.index using Nat.strong_induction_on generalizing f with
  | _ n ih =>
  subst hn
  obtain ⟨node, hnode⟩ := hs.owns_iff_node?.1 hf
  have hkind : node.kind = f.kind := (node?_eq_some_iff.1 hnode).2.1
  have hpart : ∀ part ∈ node.parts, s.eval α part = (s.tree part).opaqueEval leaf :=
    fun part hpart => ih part.index (index_lt_of_node? hnode hpart) (hs.owns_part hnode hpart) rfl
  cases node with
  | atom name =>
    have hsat := saturated_of_kind (.inl hkind.symm)
    rw [eval_atom hnode, hleaf f hf hsat, tree_atom hnode, Expr.opaqueEval]
  | not a =>
    rw [eval_not hnode, tree_not hnode, Expr.opaqueEval, hpart a (by simp [Node.parts])]
  | binary op a b =>
    by_cases hop : op = .iff
    · subst hop
      have hsat := saturated_of_kind (.inr hkind.symm)
      rw [eval_iff hnode, hleaf f hf hsat, tree_binary hnode, Expr.opaqueEval_iff]
    · rw [eval_binary hnode hop, tree_binary hnode, Expr.opaqueEval_binary hop,
        hpart a (by simp [Node.parts]), hpart b (by simp [Node.parts])]

/-- The value that an assignment gives to the formula with a certain tree. -/
def leafOfTree (s : Store) (α : Assignment) (e : Expr) : Bool :=
  match s.formulas.find? (s.tree · = e) with
  | some f => α.leaf f
  | none => false

theorem leafOfTree_tree (hs : s.WellFormed) (hf : s.Owns f) :
    s.leafOfTree α (s.tree f) = α.leaf f := by
  unfold leafOfTree
  cases hfind : s.formulas.find? (s.tree · = s.tree f) with
  | none => simpa using List.find?_eq_none.1 hfind f (mem_formulas.2 hf)
  | some g =>
    have hg : s.Owns g := mem_formulas.1 (List.mem_of_find?_eq_some hfind)
    have htree : s.tree g = s.tree f := by simpa using List.find?_some hfind
    rw [hs.tree_inj hg hf htree]

/-- **Opaque readings of formulas and of trees are the same**, since different formulas of a store
have different trees. -/
theorem forall_assignment_iff_forall_leaf (hs : s.WellFormed) {q : Sequent}
    (hq : s.OwnsSequent q) :
    (∀ α : Assignment, q.Holds (s.eval α)) ↔
      ∀ leaf : Expr → Bool, leaf (s.tree .falsum) = false → leaf (s.tree .verum) = true →
        q.Holds fun f => (s.tree f).opaqueEval leaf := by
  constructor
  · intro h leaf hfalsum hverum
    have hholds := h ⟨fun f => leaf (s.tree f), hfalsum, hverum⟩
    refine (Sequent.holds_congr fun side f hf => ?_).1 hholds
    exact eval_eq_opaqueEval hs (fun _ _ _ => rfl) (hq side f hf)
  · intro h α
    have hholds := h (s.leafOfTree α) ((leafOfTree_tree hs hs.owns_falsum).trans α.leaf_falsum)
      ((leafOfTree_tree hs hs.owns_verum).trans α.leaf_verum)
    refine (Sequent.holds_congr fun side f hf => ?_).2 hholds
    exact eval_eq_opaqueEval hs (fun g hg _ => (leafOfTree_tree hs hg).symm) (hq side f hf)

end Store

/-! ### Axioms and saturated sequents -/

namespace Sequent

/-- **Axioms hold** under every assignment. -/
theorem holds_of_isAxiom {q : Sequent} (s : Store) (α : Assignment) (h : q.isAxiom = true) :
    q.Holds (s.eval α) := by
  have hconstant : ∀ f : Formula, f.kind = .atomic → s.eval α f = α.leaf f := by
    intro f hf
    refine Store.eval_of_saturated fun shape hshape => ?_
    rw [hf] at hshape
    cases hshape
  rcases isAxiom_iff.1 h with hfalsum | hverum | ⟨f, hleft, hright⟩
  · exact .inl ⟨.falsum, hfalsum, (hconstant _ rfl).trans α.leaf_falsum⟩
  · exact .inr ⟨.verum, hverum, (hconstant _ rfl).trans α.leaf_verum⟩
  · -- whatever the common formula's value is, it is good on one of the sides
    cases hvalue : s.eval α f with
    | false => exact .inl ⟨f, hleft, hvalue⟩
    | true => exact .inr ⟨f, hright, hvalue⟩

end Sequent

/-- The assignment under which just the formulas of a cedent are true, and the constant that has
to be. -/
def Cedent.assignment (c : Cedent) (h : .falsum ∉ c) : Assignment where
  leaf f := f ∈ c || f = .verum
  leaf_falsum := by
    have hne : Formula.falsum ≠ .verum := by decide
    simp [h, hne]
  leaf_verum := by simp

/-- **Saturated sequents fail**, unless they are axioms: the assignment that makes just the formulas
on the left true makes all formulas on the right false. -/
theorem Sequent.exists_fails_of_saturated {q : Sequent} (s : Store) (hsat : q.Saturated)
    (hax : q.isAxiom = false) : ∃ α, q.Fails (s.eval α) := by
  have hnone := mt isAxiom_iff.2 (ne_true_of_eq_false hax)
  rw [not_or, not_or, not_exists] at hnone
  obtain ⟨hfalsum, hverum, hcommon⟩ := hnone
  refine ⟨q.left.assignment hfalsum, ?_, ?_⟩
  · intro f hf
    rw [Store.eval_of_saturated (hsat .left f hf)]
    simp [Cedent.assignment, hf]
  · intro f hf
    rw [Store.eval_of_saturated (hsat .right f hf)]
    have hleft : f ∉ q.left := fun h => hcommon f ⟨h, hf⟩
    have hne : f ≠ .verum := fun h => hverum (h ▸ hf)
    simp [Cedent.assignment, hleft, hne]

/-! ### Valuations as assignments -/

namespace Store

variable {s t : Store} {v : String → Bool} {f : Formula}

/-- A valuation that gives the names of the constants their values. -/
structure Respects (s : Store) (v : String → Bool) : Prop where
  falsum : ∀ name, s.name? .falsum = some name → v name = false
  verum : ∀ name, s.name? .verum = some name → v name = true

theorem name?_eq_some_iff {name : String} :
    s.name? f = some name ↔ s.node? f = some (.atom name) := by
  unfold name?
  split <;> simp_all

theorem WellFormed.exists_name?_falsum (hs : s.WellFormed) : ∃ name, s.name? .falsum = some name := by
  obtain ⟨name, hname⟩ := hs.falsum
  exact ⟨name, name?_eq_some_iff.2 (hs.node?_eq_some_iff.2 ⟨hname, rfl⟩)⟩

theorem WellFormed.exists_name?_verum (hs : s.WellFormed) : ∃ name, s.name? .verum = some name := by
  obtain ⟨name, hname⟩ := hs.verum
  exact ⟨name, name?_eq_some_iff.2 (hs.node?_eq_some_iff.2 ⟨hname, rfl⟩)⟩

theorem Respects.eval_falsum (hs : s.WellFormed) (hv : s.Respects v) :
    (s.tree .falsum).eval v = false := by
  obtain ⟨name, hname⟩ := hs.exists_name?_falsum
  rw [tree_atom (name?_eq_some_iff.1 hname), Expr.eval, hv.falsum name hname]

theorem Respects.eval_verum (hs : s.WellFormed) (hv : s.Respects v) :
    (s.tree .verum).eval v = true := by
  obtain ⟨name, hname⟩ := hs.exists_name?_verum
  rw [tree_atom (name?_eq_some_iff.1 hname), Expr.eval, hv.verum name hname]

/-- There is one name for each constant, so two values are all that is asked for. -/
theorem respects_iff_of_name? {falseName trueName : String}
    (hfalse : s.name? .falsum = some falseName) (htrue : s.name? .verum = some trueName) :
    s.Respects v ↔ v falseName = false ∧ v trueName = true := by
  constructor
  · intro hv
    exact ⟨hv.falsum falseName hfalse, hv.verum trueName htrue⟩
  · rintro ⟨hvfalse, hvtrue⟩
    constructor
    · intro name hname
      rw [hfalse] at hname
      cases hname
      exact hvfalse
    · intro name hname
      rw [htrue] at hname
      cases hname
      exact hvtrue

/-- The constants keep their names while the store grows. -/
theorem respects_extend_iff (hs : s.WellFormed) (ht : t.WellFormed) (hst : s.Extends t) :
    t.Respects v ↔ s.Respects v := by
  have hname : ∀ {f name}, s.name? f = some name → t.name? f = some name := fun h =>
    name?_eq_some_iff.2 (hs.node?_extend ht hst (name?_eq_some_iff.1 h))
  obtain ⟨falseName, hfalse⟩ := hs.exists_name?_falsum
  obtain ⟨trueName, htrue⟩ := hs.exists_name?_verum
  rw [respects_iff_of_name? hfalse htrue, respects_iff_of_name? (hname hfalse) (hname htrue)]

/-- The constants have the names that they were given. -/
theorem name?_constants {policy : Policy} {falseName trueName : String} {fresh : Store}
    (hfresh : withConstants policy falseName trueName = .ok fresh) (hwf : fresh.WellFormed)
    (hs : s.WellFormed) (hext : fresh.Extends s) :
    s.name? .falsum = some falseName ∧ s.name? .verum = some trueName := by
  obtain ⟨-, -, hnodes⟩ := withConstants_eq_ok hfresh
  constructor
  · exact name?_eq_some_iff.2 (hwf.node?_extend hs hext
      (hwf.node?_eq_some_iff.2 ⟨by rw [hnodes]; rfl, rfl⟩))
  · exact name?_eq_some_iff.2 (hwf.node?_extend hs hext
      (hwf.node?_eq_some_iff.2 ⟨by rw [hnodes]; rfl, rfl⟩))

theorem respects_withConstants_iff {policy : Policy} {falseName trueName : String}
    (h : withConstants policy falseName trueName = .ok s) :
    s.Respects v ↔ v falseName = false ∧ v trueName = true := by
  have hs := wellFormed_withConstants h
  obtain ⟨hfalse, htrue⟩ := name?_constants h hs hs (.refl s)
  exact respects_iff_of_name? hfalse htrue

/-- The constants are read back as atoms with their names. -/
theorem tree_constants {policy : Policy} {falseName trueName : String} {fresh : Store}
    (hfresh : withConstants policy falseName trueName = .ok fresh) (hwf : fresh.WellFormed)
    (hs : s.WellFormed) (hext : fresh.Extends s) :
    s.tree .falsum = .atom falseName ∧ s.tree .verum = .atom trueName := by
  obtain ⟨hfalse, htrue⟩ := name?_constants hfresh hwf hs hext
  exact ⟨tree_atom (name?_eq_some_iff.1 hfalse), tree_atom (name?_eq_some_iff.1 htrue)⟩

/-- A valuation as an assignment: a leaf has the value of its tree. -/
def assignment (hs : s.WellFormed) (hv : s.Respects v) : Assignment where
  leaf f := (s.tree f).eval v
  leaf_falsum := hv.eval_falsum hs
  leaf_verum := hv.eval_verum hs

/-- **A valuation is an assignment**: the two readings of a formula then agree. -/
theorem eval_assignment (hs : s.WellFormed) (hv : s.Respects v) (f : Formula) :
    s.eval (assignment hs hv) f = (s.tree f).eval v := by
  -- the induction is on the place of the formula, since parts are at smaller places
  induction hn : f.index using Nat.strong_induction_on generalizing f with
  | _ n ih =>
  subst hn
  cases hnode : s.node? f with
  | none =>
    -- a handle without a node is a leaf in both readings
    rw [eval]
    split <;> simp_all [assignment]
  | some node =>
    have hpart : ∀ part ∈ node.parts, s.eval (assignment hs hv) part = (s.tree part).eval v :=
      fun part hpart => ih part.index (index_lt_of_node? hnode hpart) part rfl
    cases node with
    | atom name => exact eval_atom hnode
    | not a =>
      rw [eval_not hnode, tree_not hnode, Expr.eval, hpart a (by simp [Node.parts])]
    | binary op a b =>
      by_cases hop : op = .iff
      · -- the equivalence is opaque, but the leaf got the value of its tree
        subst hop
        exact eval_iff hnode
      · rw [eval_binary hnode hop, tree_binary hnode, Expr.eval, hpart a (by simp [Node.parts]),
          hpart b (by simp [Node.parts])]

theorem holds_tree_of_forall_assignment (hs : s.WellFormed) {q : Sequent}
    (h : ∀ α : Assignment, q.Holds (s.eval α)) (hv : s.Respects v) :
    q.Holds fun f => (s.tree f).eval v := by
  have hα := h (assignment hs hv)
  rwa [show s.eval (assignment hs hv) = fun f => (s.tree f).eval v from
    funext (eval_assignment hs hv)] at hα

/-! ### Assignments as valuations -/

/-- The values of the atoms by name.  Names that no atom of the store has do not matter. -/
def valuation (s : Store) (α : Assignment) (name : String) : Bool :=
  match s.find? (.atom name) with
  | some f => α.leaf f
  | none => false

theorem valuation_of_name? (hs : s.WellFormed) (α : Assignment) {name : String}
    (h : s.name? f = some name) : s.valuation α name = α.leaf f := by
  obtain ⟨hget, hkind⟩ := hs.node?_eq_some_iff.1 (name?_eq_some_iff.1 h)
  have hfind : s.find? (.atom name) = some f := hs.indexed.2 ⟨.atom name, hget, hkind, rfl⟩
  rw [valuation, hfind]

theorem respects_valuation (hs : s.WellFormed) (α : Assignment) : s.Respects (s.valuation α) where
  falsum name h := by rw [valuation_of_name? hs α h, α.leaf_falsum]
  verum name h := by rw [valuation_of_name? hs α h, α.leaf_verum]

theorem WellFormed.ne_iff_of_expand (hs : s.WellFormed) (hexpand : s.policy.equivalence = .expand)
    {op : BinOp} {a b : Formula} (hnode : s.node? f = some (.binary op a b)) : op ≠ .iff := by
  rintro rfl
  have hkeep : s.policy.equivalence = .keep := hs.admitted (hs.node?_eq_some_iff.1 hnode).1
  rw [hexpand] at hkeep
  cases hkeep

/-- **An assignment is a valuation** in a store that expands equivalences: the two readings of a
formula then agree. -/
theorem eval_valuation (hs : s.WellFormed) (hexpand : s.policy.equivalence = .expand)
    (α : Assignment) (hf : s.Owns f) : (s.tree f).eval (s.valuation α) = s.eval α f := by
  rw [eval_eq_opaqueEval hs ?_ hf, Expr.opaqueEval_eval]
  intro g hg hsat
  obtain ⟨node, hnode⟩ := hs.owns_iff_node?.1 hg
  rcases node_of_saturated hnode hsat with ⟨name, rfl⟩ | ⟨a, b, rfl⟩
  · rw [tree_atom hnode, Expr.eval, valuation_of_name? hs α (name?_eq_some_iff.2 hnode)]
  · exact absurd rfl (hs.ne_iff_of_expand hexpand hnode)

theorem fails_valuation_iff (hs : s.WellFormed) (hexpand : s.policy.equivalence = .expand)
    (α : Assignment) {q : Sequent} (hq : s.OwnsSequent q) :
    q.Fails (fun f => (s.tree f).eval (s.valuation α)) ↔ q.Fails (s.eval α) :=
  Sequent.fails_congr fun side f hf => eval_valuation hs hexpand α (hq side f hf)

/-- **To hold opaquely is to hold classically** in a store that expands equivalences. -/
theorem forall_assignment_holds_iff (hs : s.WellFormed)
    (hexpand : s.policy.equivalence = .expand) {q : Sequent} (hq : s.OwnsSequent q) :
    (∀ α : Assignment, q.Holds (s.eval α)) ↔
      ∀ v, s.Respects v → q.Holds fun f => (s.tree f).eval v := by
  constructor
  · intro h v hv
    exact holds_tree_of_forall_assignment hs h hv
  · intro h α
    -- if the sequent failed under `α`, it would fail under the values of the atoms in `α`
    refine Classical.byContradiction fun hnot => ?_
    have hfails := (fails_valuation_iff hs hexpand α hq).2 (Sequent.not_holds_iff.1 hnot)
    exact Sequent.not_holds_iff.2 hfails (h _ (respects_valuation hs α))

/-! ### Building keeps the meaning -/

/-- Lists with the same trees have the same values. -/
theorem exists_value_iff_of_map_tree {value : Expr → Bool} {fs : List Formula} {es : List Expr}
    {norm : Expr → Expr} (h : fs.map s.tree = es.map norm) (b : Bool) :
    (∃ f ∈ fs, value (s.tree f) = b) ↔ ∃ a ∈ es, value (norm a) = b := by
  have hmem := congrArg (fun trees => b ∈ trees.map value) h
  simpa using hmem

/-- **What is built stands for normal forms**: a sequent that is built holds exactly when the normal
forms of what was written do. -/
theorem holds_build_iff_holdsUnder (hs : s.WellFormed) (e : SequentExpr) (value : Expr → Bool) :
    (e.build s).1.Holds (fun f => value ((e.build s).2.tree f)) ↔
      e.HoldsUnder fun a => value (Expr.normal s.policy (s.tree .falsum) (s.tree .verum) a) := by
  obtain ⟨hmidext, hmid⟩ := (grows_buildAll hs e.left).extend_wellFormed hs
  obtain ⟨hext, hend⟩ := (grows_buildAll hmid e.right).extend_wellFormed hmid
  obtain ⟨howns, hleft⟩ := map_tree_buildAll hs e.left
  obtain ⟨-, hright⟩ := map_tree_buildAll hmid e.right
  rw [hmidext.policy, hs.tree_extend hmid hmidext hs.owns_falsum,
    hs.tree_extend hmid hmidext hs.owns_verum] at hright
  -- the formulas on the left keep their trees while the right side is built
  have hkept : (Expr.buildAll s e.left).1.map (e.build s).2.tree =
      (Expr.buildAll s e.left).1.map (Expr.buildAll s e.left).2.tree :=
    List.map_congr_left fun f hf => hmid.tree_extend hend hext (howns f hf)
  unfold Sequent.Holds SequentExpr.HoldsUnder
  rw [← exists_value_iff_of_map_tree (hkept.trans hleft), ← exists_value_iff_of_map_tree hright]
  refine or_congr (exists_congr fun f => ?_) (exists_congr fun f => ?_)
  · rw [SequentExpr.build, Sequent.mem_left_ofLists]
  · rw [SequentExpr.build, Sequent.mem_right_ofLists]

/-- **Building keeps the meaning**: the sequent that is built holds exactly when the sequent that
was written does. -/
theorem holds_build_iff (hs : s.WellFormed) (hv : s.Respects v) (e : SequentExpr) :
    (e.build s).1.Holds (fun f => ((e.build s).2.tree f).eval v) ↔ e.Holds v := by
  rw [holds_build_iff_holdsUnder hs e (Expr.eval v)]
  simp only [Expr.eval_normal (hv.eval_falsum hs) (hv.eval_verum hs)]
  rfl

end Store

end SequentCalculus
