import SequentCalculus.Proofs.Semantics

/-!
# The meaning of what is built

The truth value of a formula can be read from the entries of its store, without its tree being
spelled out: an entry has its value from the values of its parts, which are entries at smaller
places (`Store.truth`).  A formula that occurs in many places is one entry, and has one value.

Building an expression changes what is said, by the policy, and where it is said, by sharing.  It
does not change what is meant (`building_keeps_truth`).  The entries of a formula have the value of
its tree (`WellFormed.truth_eq_eval_tree`), the tree is the normal form of the expression, and
normal forms mean what the expression means.

A store is told how its constants are called.  The keywords stand for the constants whatever they
are called, and an atom with the name of a constant is that constant, because atoms are found by
their names (`WellFormed.atom_eq`).
-/

namespace SequentCalculus.Store

variable {s t : Store} {v : String → Bool} {f : Formula}

/-- The truth value of a formula when the atoms have the values that `v` gives to their names, read
from the entries of the store.  Equivalences are read by their truth table like all connectives.  A
handle of no formula counts as false. -/
def truth (s : Store) (v : String → Bool) (f : Formula) : Bool :=
  match h : s.node? f with
  | some (.atom name) => v name
  | some (.not a) =>
    have : a.index < f.index := index_lt_of_node? h (by simp [Node.parts])
    !s.truth v a
  | some (.binary op a b) =>
    have : a.index < f.index := index_lt_of_node? h (by simp [Node.parts])
    have : b.index < f.index := index_lt_of_node? h (by simp [Node.parts])
    op.eval (s.truth v a) (s.truth v b)
  | none => false
termination_by f.index

theorem truth_atom {name : String} (h : s.node? f = some (.atom name)) : s.truth v f = v name := by
  rw [truth]; split <;> simp_all

theorem truth_not {a : Formula} (h : s.node? f = some (.not a)) :
    s.truth v f = !s.truth v a := by
  rw [truth]; split <;> simp_all

theorem truth_binary {op : BinOp} {a b : Formula} (h : s.node? f = some (.binary op a b)) :
    s.truth v f = op.eval (s.truth v a) (s.truth v b) := by
  rw [truth]; split <;> simp_all

/-- **Entries and trees have the same values.** -/
theorem WellFormed.truth_eq_eval_tree (hs : s.WellFormed) (hf : s.Owns f) :
    s.truth v f = (s.tree f).eval v := by
  -- the induction is on the place of the formula, since parts are at smaller places
  induction hn : f.index using Nat.strong_induction_on generalizing f with
  | _ n ih =>
  subst hn
  obtain ⟨node, hnode⟩ := hs.owns_iff_node?.1 hf
  have hpart : ∀ part ∈ node.parts, s.truth v part = (s.tree part).eval v := fun part hpart =>
    ih part.index (index_lt_of_node? hnode hpart) (hs.owns_part hnode hpart) rfl
  cases node with
  | atom name => rw [truth_atom hnode, tree_atom hnode, Expr.eval]
  | not a => rw [truth_not hnode, tree_not hnode, Expr.eval, hpart a (by simp [Node.parts])]
  | binary op a b =>
    rw [truth_binary hnode, tree_binary hnode, Expr.eval, hpart a (by simp [Node.parts]),
      hpart b (by simp [Node.parts])]

/-- A formula keeps its value while the store grows. -/
theorem WellFormed.truth_extend (hs : s.WellFormed) (ht : t.WellFormed) (hst : s.Extends t)
    (hf : s.Owns f) : t.truth v f = s.truth v f := by
  rw [ht.truth_eq_eval_tree (hf.extend hst), hs.truth_eq_eval_tree hf, hs.tree_extend ht hst hf]

/-- The value of a built expression is that of the expression. -/
theorem WellFormed.truth_build (hs : s.WellFormed) (hv : s.Respects v) (e : Expr) :
    (e.build s).2.truth v (e.build s).1 = e.eval v := by
  have he := yields_build hs e
  rw [he.wellFormed.truth_eq_eval_tree he.owns, he.tree,
    Expr.eval_normal (hv.eval_falsum hs) (hv.eval_verum hs)]

/-- An atom is found by its name. -/
theorem WellFormed.atom_eq (hs : s.WellFormed) {name : String} (h : s.name? f = some name) :
    s.atom name = (f, s) :=
  hs.intern_eq (name?_eq_some_iff.1 h)

/-- **Building keeps the truth value**, under every policy and at any time of a store's life.  The
formula of an expression has the value of the expression, when it is built and whatever is interned
afterwards, under all valuations that give the names of the constants their values.  An atom with
the name of a constant is built as the constant. -/
theorem building_keeps_truth (policy : Policy) {falseName trueName : String}
    (hne : falseName ≠ trueName) :
    ∃ fresh, withConstants policy falseName trueName = .ok fresh ∧
      ∀ s : Store, fresh.Grows s →
        (Expr.atom falseName).build s = Expr.falsum.build s ∧
        (Expr.atom trueName).build s = Expr.verum.build s ∧
        ∀ (e : Expr) (v : String → Bool), v falseName = false → v trueName = true →
          ∀ t : Store, (e.build s).2.Grows t → t.truth v (e.build s).1 = e.eval v := by
  have hfresh : withConstants policy falseName trueName =
      .ok (constants policy falseName trueName) := if_neg hne
  refine ⟨_, hfresh, fun s hgrows => ?_⟩
  have hwf := wellFormed_withConstants hfresh
  obtain ⟨hext, hs⟩ := hgrows.extend_wellFormed hwf
  obtain ⟨hfalse, htrue⟩ := name?_constants hfresh hwf hs hext
  refine ⟨hs.atom_eq hfalse, hs.atom_eq htrue, fun e v hvfalse hvtrue t ht => ?_⟩
  have hv : s.Respects v := (respects_iff_of_name? hfalse htrue).2 ⟨hvfalse, hvtrue⟩
  have he := yields_build hs e
  obtain ⟨hext', htwf⟩ := ht.extend_wellFormed he.wellFormed
  rw [he.wellFormed.truth_extend htwf hext' he.owns, hs.truth_build hv e]

/-- The constants are called `F` and `T`, so that `false` may be the name of an ordinary atom.  If
this atom is true, its equivalence with the false constant is false, in its expanded form and after
`r` was interned too.  The equivalence of `F` with the false constant is true. -/
theorem building_keeps_truth_of_renamed_constants :
    "F" ≠ "T" ∧ ∃ fresh, withConstants ⟨.fromImplication, .expand⟩ "F" "T" = .ok fresh ∧
      let s := (fresh.atom "q").2
      let v : String → Bool := (· != "F")
      let ordinary : Expr := .binary .iff (.atom "false") .falsum
      let constant : Expr := .binary .iff (.atom "F") .falsum
      let later (e : Expr) := ((e.build s).2.atom "r").2
      (Expr.atom "F").build s = (.falsum, s) ∧ v "F" = false ∧ v "T" = true ∧
        (later ordinary).truth v (ordinary.build s).1 = false ∧
        (later constant).truth v (constant.build s).1 = true := by
  have hne : "F" ≠ "T" := by decide
  refine ⟨hne, ?_⟩
  obtain ⟨fresh, hfresh, hkeeps⟩ := building_keeps_truth ⟨.fromImplication, .expand⟩ hne
  refine ⟨fresh, hfresh, ?_⟩
  intro s v ordinary constant later
  obtain ⟨hfalse, -, htruth⟩ := hkeeps s (.single (.atom fresh "q"))
  have hlater : ∀ e : Expr, (e.build s).2.Grows (later e) := fun e => .single (.atom _ "r")
  refine ⟨hfalse, rfl, rfl, ?_, ?_⟩
  · exact htruth ordinary v rfl rfl _ (hlater ordinary)
  · exact htruth constant v rfl rfl _ (hlater constant)

end SequentCalculus.Store
