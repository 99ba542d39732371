import SequentCalculus.Proofs.Search.CounterModel
import SequentCalculus.Proofs.Store.Canonical

/-!
# Open branches as they are printed

A search that ends with a saturated leaf shows it to the user as a sequent, and then the values of
the atoms in it.  What the user sees are expressions (`Store.written`), and the problem is a sequent
of expressions too, so this is about expressions alone.

A reading gives truth values to atoms and to equivalences, as if these were atoms.  It fits what is
printed (`SequentExpr.Fits`) if the atoms have the values that are printed for them, and the
equivalences of the branch are true on its left and false on its right.  There are such readings,
and the problem fails under each of them (`Search.Settles.exists_fits`,
`Search.Settles.failsUnder_of_fits`), where the policy of the store decides what its equivalences
are.  Classical valuations are readings.

Equivalences on the branch come from equivalences in the problem, and only if the policy keeps them
(`Search.Settles.equivalence_of_hasIff`).
-/

namespace SequentCalculus

theorem Agrees.mono {v : String → Bool} {lines values : List String} (h : Agrees v lines)
    (hsub : values ⊆ lines) : Agrees v values :=
  fun name => ⟨fun hline => (h name).1 (hsub hline), fun hline => (h name).2 (hsub hline)⟩

/-! ### Sequents of expressions -/

/-- Whether an equivalence occurs in an expression. -/
def Expr.hasIff : Expr → Bool
  | .falsum => false
  | .verum => false
  | .atom _ => false
  | .not a => a.hasIff
  | .binary op a b => op == .iff || a.hasIff || b.hasIff

/-- The truth value of an expression in the form that the policy gives it, when `reading` gives the
values of the atoms and of the equivalences that are kept. -/
def Expr.opaqueValue (policy : Policy) (reading : Expr → Bool) (a : Expr) : Bool :=
  (Expr.normal policy (.atom "false") (.atom "true") a).opaqueEval reading

/-- For a classical reading the policy makes no difference. -/
theorem Expr.opaqueValue_eval {v : String → Bool} (hfalse : v "false" = false)
    (htrue : v "true" = true) (policy : Policy) (a : Expr) :
    a.opaqueValue policy (Expr.eval v) = a.eval v := by
  have hbot : (Expr.atom "false").eval v = false := hfalse
  have htop : (Expr.atom "true").eval v = true := htrue
  rw [opaqueValue, opaqueEval_eval, eval_normal hbot htop]

namespace SequentExpr

variable {e branch : SequentExpr} {value reading : Expr → Bool} {values : List String}

/-- Whether an equivalence occurs in a sequent. -/
def hasIff (e : SequentExpr) : Bool :=
  (e.left ++ e.right).any Expr.hasIff

/-- The text of a sequent: an empty side leaves no blank beside the arrow. -/
def text (e : SequentExpr) : String :=
  (if e.left.isEmpty then "" else ", ".intercalate (e.left.map Expr.text) ++ " ") ++ "=>" ++
    (if e.right.isEmpty then "" else " " ++ ", ".intercalate (e.right.map Expr.text))

/-- Every expression on the left is true, and every expression on the right is false. -/
def FailsUnder (value : Expr → Bool) (e : SequentExpr) : Prop :=
  (∀ a ∈ e.left, value a = true) ∧ ∀ a ∈ e.right, value a = false

theorem not_holdsUnder_iff : ¬e.HoldsUnder value ↔ e.FailsUnder value := by
  simp [HoldsUnder, FailsUnder]

theorem failsUnder_congr {value' : Expr → Bool} (h : ∀ a, value a = value' a) :
    e.FailsUnder value ↔ e.FailsUnder value' := by
  rw [funext h]

/-- **A reading fits a printed branch**: the constants and the printed atoms have their values, and
the equivalences of the branch are true on the left and false on the right. -/
structure Fits (branch : SequentExpr) (values : List String) (reading : Expr → Bool) : Prop where
  falsum : reading (.atom "false") = false
  verum : reading (.atom "true") = true
  atoms : Agrees (fun name => reading (.atom name)) values
  left : ∀ a b, .binary .iff a b ∈ branch.left → reading (.binary .iff a b) = true
  right : ∀ a b, .binary .iff a b ∈ branch.right → reading (.binary .iff a b) = false

theorem hasIff_of_mem {a b : Expr} (h : .binary .iff a b ∈ e.left ++ e.right) :
    e.hasIff = true :=
  List.any_eq_true.2 ⟨_, h, by simp [Expr.hasIff]⟩

/-- Where no equivalence stands on the branch, the printed values are all there is to fit. -/
theorem fits_eval_iff (h : branch.hasIff = false) {v : String → Bool} :
    branch.Fits values (Expr.eval v) ↔ v "false" = false ∧ v "true" = true ∧ Agrees v values := by
  have hnone : ∀ a b, .binary .iff a b ∉ branch.left ++ branch.right := by
    intro a b hmem
    rw [hasIff_of_mem hmem] at h
    cases h
  constructor
  · intro hfits
    exact ⟨hfits.falsum, hfits.verum, hfits.atoms⟩
  · rintro ⟨hfalse, htrue, hagrees⟩
    exact ⟨hfalse, htrue, hagrees,
      fun a b hmem => absurd (List.mem_append_left _ hmem) (hnone a b),
      fun a b hmem => absurd (List.mem_append_right _ hmem) (hnone a b)⟩

end SequentExpr

/-! ### Sequents of a store as expressions -/

namespace Store

variable {s : Store} {q leaf : Sequent} {f : Formula} {reading : Expr → Bool}

/-- The expressions that a sequent stands for. -/
def written (s : Store) (q : Sequent) : SequentExpr where
  left := q.left.occurrences.map s.tree
  right := q.right.occurrences.map s.tree

/-- What a sequent stands for is printed as the sequent is. -/
theorem text_written (s : Store) (q : Sequent) : (s.written q).text = s.sequentText q := by
  have hcedent (c : Cedent) :
      ", ".intercalate ((c.occurrences.map s.tree).map Expr.text) = s.cedentText c := by
    rw [List.map_map]
    rfl
  unfold SequentExpr.text sequentText written
  simp only [hcedent, List.isEmpty_map, Cedent.isEmpty_eq]

/-- Each formula has the value that its expression has under the reading. -/
theorem failsUnder_written_iff : (s.written q).FailsUnder reading ↔
    q.Fails fun f => reading (s.tree f) := by
  unfold SequentExpr.FailsUnder written
  rw [List.forall_mem_map, List.forall_mem_map]
  rfl

/-- **What is built fails as what was written does.** -/
theorem fails_build_iff {policy : Policy} (e : SequentExpr) (reading : Expr → Bool) :
    (e.build (ofPolicy policy)).1.Fails
        (fun f => ((e.build (ofPolicy policy)).2.tree f).opaqueEval reading) ↔
      e.FailsUnder (Expr.opaqueValue policy reading) := by
  have hfresh : withConstants policy "false" "true" = .ok (ofPolicy policy) := rfl
  have hwf := wellFormed_withConstants hfresh
  obtain ⟨hfalsum, hverum⟩ := tree_constants hfresh hwf hwf (.refl _)
  have hpolicy : (ofPolicy policy).policy = policy := (withConstants_eq_ok hfresh).2.1
  rw [← Sequent.not_holds_iff, ← SequentExpr.not_holdsUnder_iff,
    holds_build_iff_holdsUnder hwf e (Expr.opaqueEval reading), hfalsum, hverum, hpolicy]
  rfl

/-- **To fit a printed leaf is to make it fail**, since its formulas are atoms and equivalences. -/
theorem fits_modelLines_iff (hs : s.WellFormed) (howns : s.OwnsSequent leaf)
    (hsat : leaf.Saturated) :
    (s.written leaf).Fits (s.modelLines leaf).tail reading ↔
      reading (.atom "false") = false ∧ reading (.atom "true") = true ∧
        (s.written leaf).FailsUnder reading := by
  constructor
  · -- an atom has the value that is printed for it, and an equivalence that of its side
    intro hfits
    obtain ⟨hleft, hright⟩ := (agrees_modelLines_iff_names hs howns).1 hfits.atoms
    refine ⟨hfits.falsum, hfits.verum, fun e he => ?_, fun e he => ?_⟩
    · obtain ⟨f, hf, rfl⟩ := List.mem_map.1 he
      obtain ⟨node, hnode⟩ := hs.owns_iff_node?.1 (howns .left f hf)
      rcases node_of_saturated hnode (hsat .left f hf) with ⟨name, rfl⟩ | ⟨a, b, rfl⟩
      · rw [tree_atom hnode]
        exact hleft f hf name (name?_eq_some_iff.2 hnode)
      · rw [tree_binary hnode] at he ⊢
        exact hfits.left _ _ he
    · obtain ⟨f, hf, rfl⟩ := List.mem_map.1 he
      obtain ⟨node, hnode⟩ := hs.owns_iff_node?.1 (howns .right f hf)
      rcases node_of_saturated hnode (hsat .right f hf) with ⟨name, rfl⟩ | ⟨a, b, rfl⟩
      · rw [tree_atom hnode]
        exact hright f hf name (name?_eq_some_iff.2 hnode)
      · rw [tree_binary hnode] at he ⊢
        exact hfits.right _ _ he
  · -- what is printed are values of atoms on the leaf
    rintro ⟨hfalse, htrue, hleft, hright⟩
    have htree {f : Formula} {name : String} (hname : s.name? f = some name) :
        s.tree f = .atom name := tree_atom (name?_eq_some_iff.1 hname)
    refine ⟨hfalse, htrue, (agrees_modelLines_iff_names hs howns).2 ⟨?_, ?_⟩,
      fun a b hmem => hleft _ hmem, fun a b hmem => hright _ hmem⟩
    · intro f hf name hname
      exact hleft _ (List.mem_map.2 ⟨f, hf, htree hname⟩)
    · intro f hf name hname
      exact hright _ (List.mem_map.2 ⟨f, hf, htree hname⟩)

/-! ### Where equivalences come from -/

/-- Some formula of the store is an equivalence. -/
def HasIff (s : Store) : Prop :=
  ∃ (i : Nat) (a b : Formula), s.nodes[i]? = some (.binary .iff a b)

/-- A node that is interned is in the store already, or is the only one that is new. -/
theorem HasIff.of_intern {node : Node} (h : (s.intern node).2.HasIff) :
    s.HasIff ∨ ∃ a b, node = .binary .iff a b := by
  obtain ⟨i, a, b, hnode⟩ := h
  unfold intern at hnode
  split at hnode
  · exact .inl ⟨i, a, b, hnode⟩
  · rcases getElem?_add_eq_some hnode with ⟨-, hadded⟩ | hold
    · exact .inr ⟨a, b, hadded.symm⟩
    · exact .inl ⟨i, a, b, hold⟩

/-- Negations and implications are not built as equivalences. -/
theorem HasIff.of_not {a : Formula} (h : (s.not a).2.HasIff) : s.HasIff := by
  rw [not_eq_intern] at h
  refine h.of_intern.resolve_right ?_
  rintro ⟨x, y, hnode⟩
  unfold Policy.notNode at hnode
  split at hnode <;> cases hnode

theorem HasIff.of_implies {a b : Formula} (h : (s.implies a b).2.HasIff) : s.HasIff := by
  rw [implies_eq_intern] at h
  refine h.of_intern.resolve_right ?_
  rintro ⟨x, y, hnode⟩
  unfold Policy.impliesNode at hnode
  split at hnode <;> cases hnode

theorem HasIff.of_binary {op : BinOp} {a b : Formula} (h : (s.binary op a b).2.HasIff) :
    s.HasIff ∨ op = .iff := by
  cases op with
  | and => exact .inl (h.of_intern.resolve_right fun ⟨_, _, hnode⟩ => by cases hnode)
  | or => exact .inl (h.of_intern.resolve_right fun ⟨_, _, hnode⟩ => by cases hnode)
  | implies => exact .inl h.of_implies
  | iff => exact .inr rfl

/-- Only an expression with an equivalence brings one into the store. -/
theorem HasIff.of_build {e : Expr} (h : (e.build s).2.HasIff) : s.HasIff ∨ e.hasIff = true := by
  induction e generalizing s with
  | falsum => exact .inl h
  | verum => exact .inl h
  | atom name => exact .inl (h.of_intern.resolve_right fun ⟨_, _, hnode⟩ => by cases hnode)
  | not a ih => exact ih h.of_not
  | binary op a b iha ihb =>
    have hop : (Expr.binary op a b).hasIff = true ↔
        op = .iff ∨ a.hasIff = true ∨ b.hasIff = true := by
      simp [Expr.hasIff, or_assoc]
    rw [hop]
    -- the connective comes last, after its right operand and its left one
    rcases h.of_binary with hb | hiff
    · rcases ihb hb with ha | hb
      · exact (iha ha).imp id fun ha => .inr (.inl ha)
      · exact .inr (.inr (.inr hb))
    · exact .inr (.inl hiff)

theorem HasIff.of_buildAll {es : List Expr} (h : (Expr.buildAll s es).2.HasIff) :
    s.HasIff ∨ es.any Expr.hasIff = true := by
  induction es generalizing s with
  | nil => exact .inl h
  | cons e es ih =>
    rw [List.any_cons, Bool.or_eq_true]
    rcases ih h with he | hes
    · exact he.of_build.imp id .inl
    · exact .inr (.inr hes)

/-- Only a sequent with an equivalence brings one into the store. -/
theorem HasIff.of_build_sequent {e : SequentExpr} (h : (e.build s).2.HasIff) :
    s.HasIff ∨ e.hasIff = true := by
  rw [SequentExpr.hasIff, List.any_append, Bool.or_eq_true]
  rcases h.of_buildAll with hleft | hright
  · exact hleft.of_buildAll.imp id .inl
  · exact .inr (.inr hright)

theorem not_hasIff_ofPolicy (policy : Policy) : ¬(ofPolicy policy).HasIff := by
  rintro ⟨i, a, b, hnode⟩
  have hfresh : withConstants policy "false" "true" = .ok (ofPolicy policy) := rfl
  obtain ⟨-, -, hnodes⟩ := withConstants_eq_ok hfresh
  rw [hnodes] at hnode
  -- there are two nodes, both of them atoms
  match i, hnode with
  | 0, hnode => cases hnode
  | 1, hnode => cases hnode
  | _ + 2, hnode => cases hnode

/-! ### Readings and assignments -/

/-- Some reading fits a leaf that is no axiom. -/
theorem exists_fits_of_saturated (hs : s.WellFormed) (hfalsum : s.tree .falsum = .atom "false")
    (hverum : s.tree .verum = .atom "true") (howns : s.OwnsSequent leaf) (hsat : leaf.Saturated)
    (hax : leaf.isAxiom = false) :
    ∃ reading, (s.written leaf).Fits (s.modelLines leaf).tail reading := by
  obtain ⟨α, hα⟩ := leaf.exists_fails_of_saturated s hsat hax
  refine ⟨s.leafOfTree α, (fits_modelLines_iff hs howns hsat).2 ⟨?_, ?_, ?_⟩⟩
  · rw [← hfalsum, leafOfTree_tree hs hs.owns_falsum, α.leaf_falsum]
  · rw [← hverum, leafOfTree_tree hs hs.owns_verum, α.leaf_verum]
  · rw [failsUnder_written_iff]
    refine (Sequent.fails_congr fun side f hf => ?_).1 hα
    rw [eval_of_saturated (hsat side f hf), leafOfTree_tree hs (howns side f hf)]

/-- A reading that fits a leaf is an assignment under which the leaf fails. -/
theorem exists_assignment_of_fits (hs : s.WellFormed) (hfalsum : s.tree .falsum = .atom "false")
    (hverum : s.tree .verum = .atom "true") (howns : s.OwnsSequent leaf) (hsat : leaf.Saturated)
    (hfits : (s.written leaf).Fits (s.modelLines leaf).tail reading) :
    ∃ α : Assignment, leaf.Fails (s.eval α) ∧
      ∀ f, s.Owns f → s.eval α f = (s.tree f).opaqueEval reading := by
  obtain ⟨hfalse, htrue, hfails⟩ := (fits_modelLines_iff hs howns hsat).1 hfits
  refine ⟨⟨fun f => reading (s.tree f), hfalsum ▸ hfalse, hverum ▸ htrue⟩, ?_, fun f hf => ?_⟩
  · refine (Sequent.fails_congr fun side f hf => ?_).2 (failsUnder_written_iff.1 hfails)
    exact eval_of_saturated (hsat side f hf)
  · exact eval_eq_opaqueEval hs (fun _ _ _ => rfl) hf

/-- An equivalence on a leaf is a formula of its own, and the policy keeps it. -/
theorem hasIff_of_hasIff_written (hs : s.WellFormed) (howns : s.OwnsSequent leaf)
    (hsat : leaf.Saturated) (h : (s.written leaf).hasIff = true) :
    s.HasIff ∧ s.policy.equivalence = .keep := by
  obtain ⟨a, ha, hiff⟩ := List.any_eq_true.1 h
  obtain ⟨side, f, hf, rfl⟩ : ∃ side, ∃ f ∈ leaf.side side, s.tree f = a := by
    rcases List.mem_append.1 ha with ha | ha
    · exact ⟨.left, List.mem_map.1 ha⟩
    · exact ⟨.right, List.mem_map.1 ha⟩
  obtain ⟨node, hnode⟩ := hs.owns_iff_node?.1 (howns side f hf)
  rcases node_of_saturated hnode (hsat side f hf) with ⟨name, rfl⟩ | ⟨a, b, rfl⟩
  · -- there is no equivalence in an atom
    rw [tree_atom hnode] at hiff
    cases hiff
  · have hget := (hs.node?_eq_some_iff.1 hnode).1
    exact ⟨⟨f.index, a, b, hget⟩, hs.admitted hget⟩

/-- A store in which one sequent was built. -/
theorem build_ofPolicy (policy : Policy) (e : SequentExpr) :
    (e.build (ofPolicy policy)).2.WellFormed ∧
      (e.build (ofPolicy policy)).2.OwnsSequent (e.build (ofPolicy policy)).1 ∧
      (e.build (ofPolicy policy)).2.policy = policy ∧
      (e.build (ofPolicy policy)).2.tree .falsum = .atom "false" ∧
      (e.build (ofPolicy policy)).2.tree .verum = .atom "true" := by
  have hfresh : withConstants policy "false" "true" = .ok (ofPolicy policy) := rfl
  have hwf := wellFormed_withConstants hfresh
  obtain ⟨hgrows, howns⟩ := grows_build_sequent hwf e
  obtain ⟨hext, hs⟩ := hgrows.extend_wellFormed hwf
  exact ⟨hs, howns, hext.policy.trans (withConstants_eq_ok hfresh).2.1,
    tree_constants hfresh hwf hs hext⟩

end Store

/-! ### What a saturated leaf says of a written problem -/

namespace Search.Settles

variable {policy : Policy} {e : SequentExpr} {limit : Option Nat} {leaf : Sequent}
  {reading : Expr → Bool}

/-- What is proved fails under no reading. -/
theorem not_failsUnder_of_proof {rules : List Rule} (h : Settles (e.build (.ofPolicy policy)).2
    (e.build (.ofPolicy policy)).1 limit (.proof rules)) (hfalse : reading (.atom "false") = false)
    (htrue : reading (.atom "true") = true) : ¬e.FailsUnder (Expr.opaqueValue policy reading) := by
  obtain ⟨hs, hproblem, -, hfalsum, hverum⟩ := Store.build_ofPolicy policy e
  cases h with
  | proof _ hholds =>
    rw [← Store.fails_build_iff, ← Sequent.not_holds_iff, not_not]
    rw [Store.forall_assignment_iff_forall_leaf hs hproblem, hfalsum, hverum] at hholds
    exact hholds reading hfalse htrue

/-- There are readings that fit what is printed. -/
theorem exists_fits (h : Settles (e.build (.ofPolicy policy)).2 (e.build (.ofPolicy policy)).1 limit
    (.saturated leaf)) :
    ∃ reading, ((e.build (.ofPolicy policy)).2.written leaf).Fits
      ((e.build (.ofPolicy policy)).2.modelLines leaf).tail reading := by
  obtain ⟨hs, -, -, hfalsum, hverum⟩ := Store.build_ofPolicy policy e
  cases h with
  | saturated _ howns hsat hax =>
    exact Store.exists_fits_of_saturated hs hfalsum hverum howns hsat hax

/-- **The problem fails under each of them.** -/
theorem failsUnder_of_fits (h : Settles (e.build (.ofPolicy policy)).2
    (e.build (.ofPolicy policy)).1 limit (.saturated leaf))
    (hfits : ((e.build (.ofPolicy policy)).2.written leaf).Fits
      ((e.build (.ofPolicy policy)).2.modelLines leaf).tail reading) :
    e.FailsUnder (Expr.opaqueValue policy reading) := by
  obtain ⟨hs, hproblem, -, hfalsum, hverum⟩ := Store.build_ofPolicy policy e
  cases h with
  | saturated _ howns hsat _ hrefutes =>
    obtain ⟨α, hleaf, hvalue⟩ :=
      Store.exists_assignment_of_fits hs hfalsum hverum howns hsat hfits
    rw [← Store.fails_build_iff]
    exact (Sequent.fails_congr fun side f hf => hvalue f (hproblem side f hf)).1 (hrefutes α hleaf)

/-- An equivalence stands on the branch only if one was written and equivalences are kept. -/
theorem equivalence_of_hasIff (h : Settles (e.build (.ofPolicy policy)).2
    (e.build (.ofPolicy policy)).1 limit (.saturated leaf))
    (hiff : ((e.build (.ofPolicy policy)).2.written leaf).hasIff = true) :
    policy.equivalence = .keep ∧ e.hasIff = true := by
  obtain ⟨hs, -, hpolicy, -, -⟩ := Store.build_ofPolicy policy e
  cases h with
  | saturated _ howns hsat =>
    obtain ⟨hbuilt, hkeep⟩ := Store.hasIff_of_hasIff_written hs howns hsat hiff
    exact ⟨hpolicy ▸ hkeep, hbuilt.of_build_sequent.resolve_left (Store.not_hasIff_ofPolicy policy)⟩

end Search.Settles

end SequentCalculus
